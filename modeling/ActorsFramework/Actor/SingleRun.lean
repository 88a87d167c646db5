import ActorsFramework.Actor.Scheduling

/-!
# One run among other threads

One call of `cooperative_actor::run`, in the steps of `ActorsFramework.Actor.Scheduling`,
with any other threads that enqueue messages and try to block and unblock the mailbox
in between; the messages that handlers send are among these. It is counted how many
messages are executed, and `handled_msgs` is kept where the loops have been left.

* `run_blocks_empty` — `run` respects its throughput and blocks nothing but an empty
  mailbox.
* `tail_safe_iff` — its last loop is in order unless the throughput is `0`.
-/

namespace ActorsFramework.Scheduling

open Detail Lib
open Actor (isHighPriority)

variable {α : Type*}

/-- A run, with the mailbox that it works on. -/
structure RunState (α : Type*) where
  /-- The mailbox. -/
  mailbox : Mailbox α
  /-- Where the run is. -/
  pc : WorkPc α
  /-- `handled_msgs`. -/
  handled : ℕ := 0
  /-- How many messages have been executed. -/
  executed : ℕ := 0

/-- What can happen during a run. -/
inductive RunAct (α : Type*) where
  /-- Its next step. -/
  | run
  /-- A message arrives, from a handler or from another thread. -/
  | enqueue (m : α)
  /-- Another thread calls `try_block`. -/
  | tryBlock
  /-- Another thread calls `try_unblock`. -/
  | tryUnblock
  deriving DecidableEq

/-- `handled_msgs` after a step: the loops that are left have counted one more message. -/
def handledAfter (handled : ℕ) : WorkPc α → ℕ
  | .tryPop pt | .exchange pt _ | .tryBlock pt | .handler pt _ => pt.handled
  | .hasNext => handled + 1
  | _ => handled

/-- How many messages a step executes. -/
def executes : WorkPc α → ℕ
  | .handler _ _ => 1
  | _ => 0

/-- The run is in its last loop. -/
def inTail : WorkPc α → Bool
  | .tryPop pt | .exchange pt _ | .tryBlock pt | .handler pt _ => pt.loop = .tail
  | _ => false

/-- A run that begins with a given mailbox. -/
def singleRun [DecidableEq α] (maxThroughput : ℕ) (q₀ : Mailbox α) : System (RunState α) (RunAct α) where
  Init s := s = { mailbox := q₀, pc := cacheHead maxThroughput q₀ 0 none }
  step s
    | .run => (runStep maxThroughput s.mailbox s.pc).map fun r =>
      { mailbox := r.1, pc := r.2, handled := handledAfter s.handled r.2,
        executed := s.executed + executes s.pc }
    | .enqueue m => some { s with mailbox := (s.mailbox.enqueue m).1 }
    | .tryBlock => some { s with mailbox := s.mailbox.tryBlock.1 }
    | .tryUnblock => some { s with mailbox := s.mailbox.tryUnblock.1 }

namespace RunState

/-- The next step of the run is a `try_block`, and it will succeed. -/
def Blocks (s : RunState α) : Prop :=
  ((∃ pt, s.pc = .tryBlock pt) ∨ s.pc = .lastBlock) ∧ s.mailbox.tryBlock.2 = true

/-- The run is going to read the mailbox at this point. -/
def Reads (maxThroughput n : ℕ) (pt : Point) : Prop :=
  pt.handled = n ∧ if pt.loop = .tail then maxThroughput = 0 else n < maxThroughput

/-- What holds where the run is, after `n` messages. -/
def Place (maxThroughput : ℕ) (q : Mailbox α) (n : ℕ) : WorkPc α → Prop
  | .tryPop pt => Reads maxThroughput n pt
  | .exchange pt _ => Reads maxThroughput n pt ∧ q.head = []
  | .tryBlock pt =>
    Reads maxThroughput n pt ∧ pt.loop ≠ .tail ∧ q.cache.first = [] ∧ q.head = []
  | .handler pt _ => Reads maxThroughput n pt ∧ pt.loop ≠ .tail
  | .hasNext => n = maxThroughput
  | .lastBlock => n = maxThroughput ∧ q.cache.first = [] ∧ q.head = []
  | .failed .pushNull => maxThroughput = 0
  | _ => True

/-- The invariant. -/
structure Within (maxThroughput : ℕ) (s : RunState α) : Prop where
  executed : s.executed ≤ s.handled
  handled : s.handled ≤ maxThroughput
  place : Place maxThroughput s.mailbox s.handled s.pc

section Steps

variable {maxThroughput n : ℕ} {q : Mailbox α} {pt : Point}

theorem Reads.lt (h : Reads maxThroughput n pt) (hl : pt.loop ≠ .tail) : n < maxThroughput := by
  have h₂ := h.2
  rwa [if_neg hl] at h₂

theorem reads_of_lt {loop : Loop} (hl : loop ≠ .tail) (h : n < maxThroughput) :
    Reads maxThroughput n ⟨loop, n⟩ :=
  ⟨rfl, by rwa [if_neg hl]⟩

/-- One message more at the head of the second loop. -/
theorem mainHead_spec (h : n < maxThroughput) (m : α) :
    handledAfter n (mainHead maxThroughput (n + 1) (some m)) = n + 1 ∧
      Place maxThroughput q (n + 1) (mainHead maxThroughput (n + 1) (some m)) := by
  unfold mainHead
  split_ifs with hlt
  · exact ⟨rfl, reads_of_lt nofun hlt⟩
  · exact ⟨rfl, show n + 1 = maxThroughput by omega⟩

/-- One message more at the head of the first loop. -/
theorem cacheHead_spec (h : n < maxThroughput) (q' : Mailbox α) (m : α) :
    handledAfter n (cacheHead maxThroughput q' (n + 1) (some m)) = n + 1 ∧
      Place maxThroughput q (n + 1) (cacheHead maxThroughput q' (n + 1) (some m)) := by
  unfold cacheHead
  split_ifs with hlt
  · exact ⟨rfl, reads_of_lt nofun hlt.1⟩
  · exact mainHead_spec h m

/-- The end of `next_message`. -/
theorem taken_spec (hr : Reads maxThroughput n pt) (hn : n ≤ maxThroughput) (hh : q.head = []) :
    n ≤ handledAfter n (taken maxThroughput q pt).2 ∧
      handledAfter n (taken maxThroughput q pt).2 ≤ maxThroughput ∧
      Place maxThroughput (taken maxThroughput q pt).1 (handledAfter n (taken maxThroughput q pt).2)
        (taken maxThroughput q pt).2 := by
  obtain ⟨loop, k⟩ := pt
  obtain rfl : k = n := hr.1
  unfold taken
  split
  next hf =>
    split_ifs with hl
    · refine ⟨le_rfl, hn, ?_⟩
      have h₂ := hr.2
      rwa [if_pos hl] at h₂
    · exact ⟨le_rfl, hn, hr, hl, hf, hh⟩
  next m ms hf =>
    cases loop with
    | cache =>
      have hlt := hr.lt nofun
      dsimp only
      split_ifs
      · obtain ⟨hn', hp⟩ := cacheHead_spec hlt { q with cache := { q.cache with first := ms } } m
        rw [hn']
        exact ⟨Nat.le_succ k, hlt, hp⟩
      · exact ⟨le_rfl, hn, hr, nofun⟩
    | main => exact ⟨le_rfl, hn, hr, nofun⟩
    | tail => exact ⟨le_rfl, hn, hr⟩

/-- A handler has returned. -/
theorem handled_spec (hr : Reads maxThroughput n pt) (hl : pt.loop ≠ .tail) (m : α) :
    handledAfter n (Scheduling.handled maxThroughput q pt m).2 = n + 1 ∧
      Place maxThroughput (Scheduling.handled maxThroughput q pt m).1 (n + 1)
        (Scheduling.handled maxThroughput q pt m).2 := by
  have hlt := hr.lt hl
  obtain ⟨loop, k⟩ := pt
  obtain rfl : k = n := hr.1
  cases loop with
  | cache => exact cacheHead_spec hlt _ m
  | main => exact mainHead_spec hlt m
  | tail => exact absurd rfl hl

/-- What holds where the run is depends only on what belongs to the reader. -/
theorem Place.congr {q' : Mailbox α} {pc : WorkPc α} (h : Place maxThroughput q n pc)
    (hc : q'.cache = q.cache) (hh : q'.head = q.head) : Place maxThroughput q' n pc := by
  cases pc with
  | exchange pt e => exact ⟨h.1, hh.trans h.2⟩
  | tryBlock pt => exact ⟨h.1, h.2.1, (congrArg Cache.first hc).trans h.2.2.1, hh.trans h.2.2.2⟩
  | lastBlock => exact ⟨h.1, (congrArg Cache.first hc).trans h.2.1, hh.trans h.2.2⟩
  | failed f => cases f <;> exact h
  | _ => exact h

theorem mainHead_ne_failed (k : ℕ) (m : α) (f : Fault) :
    mainHead maxThroughput k (some m) ≠ .failed f := by
  unfold mainHead
  split_ifs <;> nofun

theorem cacheHead_ne_failed (q : Mailbox α) (k : ℕ) (m : α) (f : Fault) :
    cacheHead maxThroughput q k (some m) ≠ .failed f := by
  unfold cacheHead
  split_ifs
  · nofun
  · exact mainHead_ne_failed k m f

/-- A handler never stops the run. -/
theorem handled_ne_failed (pt : Point) (m : α) (f : Fault) :
    (Scheduling.handled maxThroughput q pt m).2 ≠ .failed f := by
  obtain ⟨loop, k⟩ := pt
  cases loop with
  | cache => exact cacheHead_ne_failed _ _ _ _
  | main => exact mainHead_ne_failed _ _ _
  | tail => nofun

/-- What `has_next_message` looks at is empty where it finds nothing. -/
theorem of_hasNextMessage_false (h : q.hasNextMessage = .ok false) : q.cache.first = [] ∧ q.head = [] := by
  unfold Mailbox.hasNextMessage Mailbox.canFetchMore at h
  split_ifs at h with hf hh
  · cases h
  · cases h
  · exact ⟨by simpa using hf, by simpa using hh⟩

variable [DecidableEq α]

/-- Where null is passed to `push_to_cache`, `try_pop` has just returned null. -/
theorem of_runStep_pushNull {pc : WorkPc α} {q' : Mailbox α}
    (h : runStep maxThroughput q pc = some (q', .failed .pushNull)) :
    ∃ pt, (pc = .tryPop pt ∧ q.head = [] ∨ ∃ e, pc = .exchange pt e) ∧
      taken maxThroughput q pt = (q', .failed .pushNull) := by
  cases pc with
  | tryPop pt =>
    simp only [runStep] at h
    split at h
    next => cases h
    next hh => split at h <;> first | cases h | exact ⟨pt, .inl ⟨rfl, hh⟩, Option.some.inj h⟩
  | exchange pt e =>
    simp only [runStep] at h
    split_ifs at h
    · cases h
    · split at h <;> cases h
    · exact ⟨pt, .inr ⟨e, rfl⟩, Option.some.inj h⟩
    · cases h
  | tryBlock pt => simp only [runStep] at h; split at h <;> cases h
  | handler pt m => exact absurd (congrArg Prod.snd (Option.some.inj h)) (handled_ne_failed pt m _)
  | hasNext =>
    simp only [runStep] at h
    split at h
    next hf => cases h; cases (Mailbox.of_hasNextMessage_error hf).1
    next => cases h
    next => cases h
  | lastBlock => cases h
  | _ => cases h

omit [DecidableEq α] in
theorem Within.of_place {q : Mailbox α} {pc : WorkPc α} {m k : ℕ} (he : handledAfter m pc = n)
    (hk : k ≤ n) (hn : n ≤ maxThroughput) (hp : Place maxThroughput q n pc) :
    Within maxThroughput ⟨q, pc, handledAfter m pc, k⟩ := by
  rw [he]
  exact ⟨hk, hn, hp⟩

/-- A step of the run. -/
theorem Within.run {s s' : RunState α} {q₀ : Mailbox α} (h : Within maxThroughput s)
    (hs : (singleRun maxThroughput q₀).step s .run = some s') : Within maxThroughput s' := by
  obtain ⟨q, pc, n, k⟩ := s
  obtain ⟨hk, hn, hp⟩ := h
  obtain ⟨⟨q', pc'⟩, hr, rfl⟩ := Option.map_eq_some_iff.mp hs
  dsimp only at hk hn hp hr ⊢
  have hm : RunMoves maxThroughput q pc q' pc' := runMoves_of_runStep hr
  cases hm with
  | pop => exact .of_place hp.1 hk hn hp
  | drained hh =>
    obtain ⟨h₁, h₂, h₃⟩ := taken_spec hp hn hh
    exact ⟨hk.trans h₁, h₂, h₃⟩
  | read hh => exact .of_place hp.1 hk hn ⟨hp, hh⟩
  | fetch => exact .of_place hp.1.1 hk hn hp.1
  | emptied =>
    obtain ⟨h₁, h₂, h₃⟩ := taken_spec hp.1 hn hp.2
    exact ⟨hk.trans h₁, h₂, h₃⟩
  | retry => exact .of_place hp.1.1 hk hn hp
  | block => exact ⟨hk, hn, trivial⟩
  | again => exact .of_place hp.1.1 hk hn hp.1
  | @handled pt m =>
    -- the one step that executes a message
    have hlt := hp.1.lt hp.2
    obtain ⟨he, hp'⟩ := handled_spec (q := q) hp.1 hp.2 m
    exact .of_place he (Nat.succ_le_succ hk) hlt hp'
  | hasNext => exact ⟨hk, hn, trivial⟩
  | hasNone =>
    have hnone : q.hasNextMessage = .ok false := by
      simp only [runStep] at hr
      split at hr
      next => cases hr
      next => cases hr
      next hb => exact hb
    exact ⟨hk, hn, hp, of_hasNextMessage_false hnone⟩
  | lastBlock => exact ⟨hk, hn, trivial⟩
  | @fail _ _ f =>
    have hex : executes pc = 0 := by
      cases pc with
      | handler pt m => exact absurd (congrArg Prod.snd (Option.some.inj hr)) (handled_ne_failed pt m _)
      | _ => rfl
    rw [hex]
    refine ⟨hk, hn, ?_⟩
    cases f with
    | pushNull =>
      obtain ⟨pt, hpt, ht⟩ := of_runStep_pushNull hr
      have hpl : Reads maxThroughput n pt ∧ q.head = [] := by
        rcases hpt with ⟨rfl, hh⟩ | ⟨e, rfl⟩
        · exact ⟨hp, hh⟩
        · exact hp
      have h₃ := (taken_spec hpl.1 hn hpl.2).2.2
      rw [ht] at h₃
      exact h₃
    | _ => trivial

/-- A step by which the run returns with throughput left is a `try_block` that succeeds. -/
theorem Within.blocks_of_store {s s' : RunState α} {q₀ : Mailbox α} (h : Within maxThroughput s)
    (hs : (singleRun maxThroughput q₀).step s .run = some s') (hst : s'.pc = .store)
    (hlt : s.handled < maxThroughput) : s.Blocks := by
  obtain ⟨q, pc, n, k⟩ := s
  obtain ⟨-, -, hp⟩ := h
  obtain ⟨⟨q', pc'⟩, hr, rfl⟩ := Option.map_eq_some_iff.mp hs
  dsimp only at hp hr hst hlt
  have hm : RunMoves maxThroughput q pc q' pc' := runMoves_of_runStep hr
  -- the other steps stay inside the run
  have hstay : pc'.inRun = false := by rw [hst]; rfl
  cases hm with
  | block hb => exact ⟨.inl ⟨_, rfl⟩, by unfold Mailbox.tryBlock; rw [hb]⟩
  | drained => cases (private_taken q _).inRun.symm.trans hstay
  | emptied => cases (private_taken q _).inRun.symm.trans hstay
  | handled => cases (private_handled q _ _).inRun.symm.trans hstay
  | hasNext => exact absurd hp hlt.ne
  | lastBlock => exact absurd hp.1 hlt.ne
  | _ => cases hst

/-- Wherever a run may come to, it has kept to its throughput. -/
theorem within_of_reachable {s : RunState α} {q₀ : Mailbox α}
    (h : (singleRun maxThroughput q₀).Reachable s) : Within maxThroughput s := by
  refine System.Reachable.invariant (I := Within maxThroughput) ?_ ?_ h
  · rintro _ rfl
    refine ⟨le_rfl, Nat.zero_le _, ?_⟩
    dsimp only
    unfold cacheHead mainHead
    split_ifs with hc hm
    · exact reads_of_lt nofun hc.1
    · exact reads_of_lt nofun hm
    · exact ⟨rfl, show maxThroughput = 0 by omega⟩
  · intro s a s' hI hs
    cases a with
    | run => exact hI.run hs
    | enqueue m =>
      cases hs
      exact ⟨hI.executed, hI.handled, hI.place.congr (Mailbox.cache_enqueue _ m) (Mailbox.head_enqueue _ m)⟩
    | tryBlock =>
      cases hs
      refine ⟨hI.executed, hI.handled, ?_⟩
      dsimp only
      rcases Mailbox.tryBlock_fst s.mailbox with he | ⟨-, he⟩
      · rw [he]
        exact hI.place
      · rw [he]
        exact hI.place.congr rfl rfl
    | tryUnblock =>
      cases hs
      exact ⟨hI.executed, hI.handled, hI.place.congr (Mailbox.cache_tryUnblock _) (Mailbox.head_tryUnblock _)⟩

end Steps

end RunState

open RunState

variable [DecidableEq α] {maxThroughput : ℕ} {q₀ : Mailbox α} {s : RunState α}

/-- **A run blocks nothing but an empty mailbox, and respects its throughput.** Whatever other
threads do meanwhile, it executes at most as many messages; whenever one of its `try_block`s
succeeds, nothing is in the first part of the cache, in `head_` or on `stack_`; and it returns
with throughput left only from such a step. -/
theorem run_blocks_empty (h : (singleRun maxThroughput q₀).Reachable s) :
    s.executed ≤ maxThroughput ∧
      (s.Blocks → s.mailbox.cache.first = [] ∧ s.mailbox.head = [] ∧ s.mailbox.stack = .list []) ∧
      ∀ s', (singleRun maxThroughput q₀).step s .run = some s' → s'.pc = .store →
        s.handled < maxThroughput → s.Blocks := by
  have hI := within_of_reachable h
  refine ⟨hI.executed.trans hI.handled, ?_, ?_⟩
  · rintro ⟨hpc, hb⟩
    have htry : s.mailbox.tryBlock = (s.mailbox.tryBlock.1, true) := Prod.ext rfl hb
    obtain ⟨hs, -⟩ := Mailbox.of_tryBlock_true htry
    have hp := hI.place
    rcases hpc with ⟨pt, hpc⟩ | hpc
    · rw [hpc] at hp
      exact ⟨hp.2.2.1, hp.2.2.2, hs⟩
    · rw [hpc] at hp
      exact ⟨hp.2.1, hp.2.2, hs⟩
  · intro s' hs hst hlt
    exact hI.blocks_of_store hs hst hlt

/-- Two messages, one of them from another thread, and a throughput of three: the run has
executed both and is about to block the mailbox. -/
theorem run_blocks_empty_two :
    ∃ s : RunState ℕ, (singleRun 3 ⟨.list [1], [], {}⟩).Reachable s ∧ s.executed = 2 ∧ s.Blocks ∧
      s.mailbox.cache.first = [] ∧ s.mailbox.head = [] ∧ s.mailbox.stack = .list [] := by
  have hr : (singleRun 3 (⟨.list [1], [], {}⟩ : Mailbox ℕ)).Reachable
      ⟨{}, .tryBlock ⟨.main, 2⟩, 2, 2⟩ :=
    System.Reachable.of_actions rfl
      [.run, .run, .enqueue 2, .run, .run, .run, .run, .run, .run, .run] rfl
  have hb : RunState.Blocks (⟨{}, .tryBlock ⟨.main, 2⟩, 2, 2⟩ : RunState ℕ) := ⟨.inl ⟨_, rfl⟩, rfl⟩
  exact ⟨_, hr, rfl, hb, (run_blocks_empty hr).2.1 hb⟩

/-- The steps of a run inside its last loop. -/
def tailSteps (tr : List (RunState α × RunAct α)) : ℕ :=
  tr.countP fun p => p.2 = .run ∧ inTail p.1.pc = true

/-- The last loop is in order: whatever other threads do, it ends after a bounded number of
steps, and never passes null to `push_to_cache`. -/
def TailSafe (maxThroughput : ℕ) (q₀ : Mailbox α) : Prop :=
  ∃ n, ∀ tr s, (singleRun maxThroughput q₀).Run tr s → tailSteps tr ≤ n ∧ s.pc ≠ .failed .pushNull

omit [DecidableEq α] in
/-- With a throughput of at least one the last loop is not entered. -/
theorem RunState.Within.not_tail (h : Within maxThroughput s) (hmax : maxThroughput ≠ 0) :
    inTail s.pc = false ∧ s.pc ≠ .failed .pushNull := by
  have hreads : ∀ {pt}, Reads maxThroughput s.handled pt → pt.loop ≠ .tail := by
    intro pt hr hl
    have h₂ := hr.2
    rw [if_pos hl] at h₂
    exact hmax h₂
  have hp := h.place
  cases hpc : s.pc with
  | tryPop pt => rw [hpc] at hp; exact ⟨decide_eq_false (hreads hp), nofun⟩
  | exchange pt e => rw [hpc] at hp; exact ⟨decide_eq_false (hreads hp.1), nofun⟩
  | tryBlock pt => rw [hpc] at hp; exact ⟨decide_eq_false hp.2.1, nofun⟩
  | handler pt m => rw [hpc] at hp; exact ⟨decide_eq_false hp.2, nofun⟩
  | failed f =>
    rw [hpc] at hp
    refine ⟨rfl, ?_⟩
    rintro ⟨⟩
    exact hmax hp
  | _ => exact ⟨rfl, nofun⟩

/-- Alone with an open mailbox and without throughput, the last loop takes all messages there
are, and then passes null. -/
theorem tail_reaches_null (h : (singleRun 0 q₀).Reachable s) (ho : s.mailbox.Open)
    (hpc : s.pc = .tryPop ⟨.tail, 0⟩) :
    ∃ s', (singleRun 0 q₀).Reachable s' ∧ s'.pc = .failed .pushNull := by
  generalize hn : 2 * s.mailbox.waiting.length + s.mailbox.cache.first.length = n
  induction n using Nat.strong_induction_on generalizing s with
  | _ n ih =>
    obtain ⟨⟨stack, head, first, second⟩, pc, k, e⟩ := s
    obtain ⟨tr, hr⟩ := h
    obtain ⟨l, rfl⟩ : ∃ l, stack = .list l := ho
    obtain rfl : pc = .tryPop ⟨.tail, 0⟩ := hpc
    cases head with
    | cons x head =>
      refine ih _ ?_ ⟨_, hr.step (a := .run) rfl⟩ ⟨l, rfl⟩ rfl rfl
      subst hn
      simp [Mailbox.waiting, cached]
      omega
    | nil =>
      cases l with
      | cons x l =>
        -- read the stack, then take it
        have hne : (x :: l).reverse ≠ [] := mt List.reverse_eq_nil_iff.mp (List.cons_ne_nil x l)
        obtain ⟨y, w, hy⟩ := List.exists_cons_of_ne_nil hne
        have hrel : Mailbox.relink (x :: l) [] = y :: w := by
          rw [Mailbox.relink_eq, List.append_nil, hy]
        have hread := hr.step (a := .run) rfl
        have hfetch : (singleRun 0 q₀).step
            ⟨⟨.list (x :: l), [], ⟨first, second⟩⟩, .exchange ⟨.tail, 0⟩ (.elem x), 0, e⟩ .run =
            some ⟨cached ⟨.list [], [], ⟨first, second⟩⟩ w y, .tryPop ⟨.tail, 0⟩, 0, e⟩ := by
          simp [singleRun, runStep, hrel, handledAfter, executes, cached]
        refine ih _ ?_ ⟨_, hread.step hfetch⟩ ⟨[], rfl⟩ rfl rfl
        have hlen := congrArg List.length hy
        subst hn
        simp only [Mailbox.waiting, cached, List.length_reverse, List.length_cons, List.length_append,
          Stack.elems_list, List.length_nil, List.reverse_nil] at hlen ⊢
        omega
      | nil =>
        cases first with
        | cons m first =>
          refine ih _ ?_ ⟨_, hr.step (a := .run) rfl⟩ ⟨[], rfl⟩ rfl rfl
          subst hn
          exact Nat.lt_succ_self _
        | nil => exact ⟨_, ⟨_, hr.step (a := .run) rfl⟩, rfl⟩

/-- **The last loop is in order exactly for a throughput other than `0`**, whatever an open mailbox
holds. -/
theorem tail_safe_iff (maxThroughput : ℕ) (ho : q₀.Open) :
    TailSafe maxThroughput q₀ ↔ maxThroughput ≠ 0 := by
  constructor
  · rintro ⟨n, hsafe⟩ rfl
    obtain ⟨s, ⟨tr, hr⟩, hpc⟩ := tail_reaches_null (s := { mailbox := q₀, pc := cacheHead 0 q₀ 0 none })
      ⟨[], .init rfl⟩ ho rfl
    exact (hsafe tr s hr).2 hpc
  · intro hmax
    refine ⟨0, fun tr s hr => ⟨?_, ((within_of_reachable ⟨tr, hr⟩).not_tail hmax).2⟩⟩
    rw [tailSteps, Nat.le_zero, List.countP_eq_zero]
    intro p hp hc
    have hn := ((within_of_reachable (hr.reachable_of_mem hp)).not_tail hmax).1
    rw [decide_eq_true_eq, hn] at hc
    cases hc.2

/-- Messages wait in the mailbox, and the throughput is three. -/
theorem tail_safe_iff_three :
    TailSafe 3 (⟨.list [5, 4], [3], ⟨[1, 2], []⟩⟩ : Mailbox ℕ) ↔ (3 : ℕ) ≠ 0 :=
  tail_safe_iff 3 ⟨_, rfl⟩

/-- A throughput of `0` and an empty mailbox: the first message that is passed on is null. -/
theorem tail_passes_null :
    (∃ s : RunState ℕ, (singleRun 0 {}).Reachable s ∧ s.pc = .failed .pushNull) ∧
      ¬ TailSafe 0 ({} : Mailbox ℕ) := by
  have hr : (singleRun 0 ({} : Mailbox ℕ)).Reachable
      { mailbox := {}, pc := .failed .pushNull } := System.Reachable.of_actions rfl [.run] rfl
  refine ⟨⟨_, hr, rfl⟩, ?_⟩
  rintro ⟨n, hsafe⟩
  obtain ⟨tr, hr⟩ := hr
  exact (hsafe tr _ hr).2 rfl

end ActorsFramework.Scheduling
