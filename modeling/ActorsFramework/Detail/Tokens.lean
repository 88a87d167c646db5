import Mathlib.Data.List.Count
import ActorsFramework.Lib.Transition
import ActorsFramework.Detail.LinkedQueue

/-!
# Who wakes the reader

The values that `stack_` goes through when any number of producers are inside
`enqueue`, any threads call `try_block` and `try_unblock`, and the reader fetches while
the queue is not blocked. An `enqueue` that returns `unblocked_reader` tells its caller
to wake the reader: a token that a successful `try_block` has made and that a
`try_unblock` can take back.

Only the pointers matter here, so the memory is left out: an address may be pushed
at any time, also again and while it is on the stack. `tokens_balance`: each block has
had one token, or the queue is blocked now.
-/

namespace ActorsFramework.Detail

open Lib

/-- Where the reader is in `fetch_new_data`. -/
inductive FetchPc (A : Type*) where
  /-- Outside, or past the exchange. -/
  | idle
  /-- In the loop, at `compare_exchange_weak`. -/
  | exchange (e : Ptr A)
  /-- An assertion has failed. -/
  | failed (f : Fault)

/-- The queue's `stack_`, and where its users are. -/
structure TokenQueue (π A : Type*) where
  /-- `stack_`. -/
  stack : Ptr A := .emptyDummy
  /-- The producers. -/
  producer : π → ProducerPc A := fun _ => .idle
  /-- The reader. -/
  reader : FetchPc A := .idle

/-- The actions. -/
inductive TokenAct (π A : Type*) where
  /-- A producer calls `enqueue`. -/
  | call (p : π) (x : A)
  /-- Its next step. -/
  | produce (p : π)
  /-- Some thread calls `try_block`. -/
  | tryBlock
  /-- Some thread calls `try_unblock`. -/
  | tryUnblock
  /-- The reader calls `fetch_new_data` and loads `stack_`; not while the queue is blocked. -/
  | fetch
  /-- Its next step; a weak exchange may fail for no reason. -/
  | step (spurious : Bool)

namespace TokenQueue

variable {π A : Type*} [DecidableEq π] [DecidableEq A]

/-- A producer moves on. -/
def setProducer (s : TokenQueue π A) (p : π) (pc : ProducerPc A) : TokenQueue π A :=
  { s with producer := Function.update s.producer p pc }

/-- The next step of `enqueue`, and what it returns where it does. -/
def produce (s : TokenQueue π A) (p : π) : Option (TokenQueue π A × Option EnqueueResult) :=
  match s.producer p with
  | .idle => none
  | .load x => some (s.setProducer p (.link x s.stack), none)
  | .link x e =>
    if e = .null then some (s.setProducer p .idle, some .queueClosed)
    else some (s.setProducer p (.exchange x e), none)
  | .exchange x e =>
    if s.stack = e then
      some ({ s.setProducer p .idle with stack := .elem x },
        some (if e = .blockedDummy then .unblockedReader else .success))
    else some (s.setProducer p (.link x s.stack), none)

/-- `try_block`. -/
def tryBlock (s : TokenQueue π A) : TokenQueue π A × Bool :=
  if s.stack = .emptyDummy then ({ s with stack := .blockedDummy }, true) else (s, false)

/-- `try_unblock`. -/
def tryUnblock (s : TokenQueue π A) : TokenQueue π A × Bool :=
  if s.stack = .blockedDummy then ({ s with stack := .emptyDummy }, true) else (s, false)

/-- `fetch_new_data` up to the first test of its loop. -/
def fetch (s : TokenQueue π A) : TokenQueue π A :=
  match s.stack with
  | .null => { s with reader := .failed .fetchClosed }
  | .blockedDummy => { s with reader := .failed .fetchBlocked }
  | .emptyDummy => s
  | e => { s with reader := .exchange e }

/-- The loop of `fetch_new_data`. -/
def fetchStep (s : TokenQueue π A) (spurious : Bool) : Option (TokenQueue π A) :=
  match s.reader with
  | .idle | .failed _ => none
  | .exchange e =>
    if s.stack = e ∧ spurious = false then
      match e with
      | .blockedDummy => some { s with stack := .emptyDummy, reader := .failed .fetchBlocked }
      | _ => some { s with stack := .emptyDummy, reader := .idle }
    else
      match s.stack with
      | .emptyDummy => some { s with reader := .idle }
      | e => some { s with reader := .exchange e }

/-- The step function. -/
def step (s : TokenQueue π A) : TokenAct π A → Option (TokenQueue π A)
  | .call p x =>
    match s.producer p with
    | .idle => some (s.setProducer p (.load x))
    | _ => none
  | .produce p => (s.produce p).map Prod.fst
  | .tryBlock => some s.tryBlock.1
  | .tryUnblock => some s.tryUnblock.1
  | .fetch =>
    match s.reader with
    | .idle => if s.stack = .blockedDummy then none else some s.fetch
    | _ => none
  | .step spurious => s.fetchStep spurious

/-- The queue as a system: it begins as it is made. -/
def system (π A : Type*) [DecidableEq π] [DecidableEq A] :
    System (TokenQueue π A) (TokenAct π A) where
  Init s := s = {}
  step := step

/-- The step is a `try_block` that succeeds. -/
def blocks (p : TokenQueue π A × TokenAct π A) : Bool :=
  match p.2 with
  | .tryBlock => p.1.tryBlock.2
  | _ => false

/-- The step is a `try_unblock` that succeeds. -/
def unblocks (p : TokenQueue π A × TokenAct π A) : Bool :=
  match p.2 with
  | .tryUnblock => p.1.tryUnblock.2
  | _ => false

/-- The step is the end of an `enqueue` that returns `unblocked_reader`. -/
def wakes (p : TokenQueue π A × TokenAct π A) : Bool :=
  match p.2 with
  | .produce q => (p.1.produce q).any (·.2 = some .unblockedReader)
  | _ => false

/-- `1` while the queue is blocked. -/
def pending (s : TokenQueue π A) : ℕ := if s.stack = .blockedDummy then 1 else 0

/-- The invariant: the queue is open, and what the reader is about to exchange is the pointer to
an element, as `stack_` is as long as nobody else can empty it. -/
structure Holds (s : TokenQueue π A) : Prop where
  isOpen : s.stack ≠ .null
  fetching : ∀ e, s.reader = .exchange e → (∃ x, e = .elem x) ∧ ∃ x, s.stack = .elem x
  sound : ∀ f, s.reader ≠ .failed f

/-- What one step does to the tokens. -/
def Balanced (s : TokenQueue π A) (a : TokenAct π A) (s' : TokenQueue π A) : Prop :=
  s'.pending + (wakes (s, a)).toNat + (unblocks (s, a)).toNat = s.pending + (blocks (s, a)).toNat

variable {s s' : TokenQueue π A}

/-- A producer's step. -/
theorem Holds.produce (h : Holds s) {p : π} (hs : s.step (.produce p) = some s') :
    Holds s' ∧ Balanced s (.produce p) s' := by
  obtain ⟨⟨s₁, r⟩, hp, rfl⟩ := Option.map_eq_some_iff.mp hs
  dsimp only
  -- only an exchange that takes the place of the blocked mark is a wake-up
  have hw : wakes (s, .produce p) = decide (r = some .unblockedReader) := by
    show (s.produce p).any _ = _
    rw [hp]
    rfl
  unfold Balanced
  rw [hw]
  cases hpc : s.producer p with
  | idle =>
    rw [TokenQueue.produce, hpc] at hp
    cases hp
  | load x =>
    rw [TokenQueue.produce, hpc] at hp
    cases hp
    exact ⟨⟨h.isOpen, h.fetching, h.sound⟩, rfl⟩
  | link x e =>
    simp only [TokenQueue.produce, hpc] at hp
    split_ifs at hp with he
    · cases hp
      exact ⟨⟨h.isOpen, h.fetching, h.sound⟩, rfl⟩
    · cases hp
      exact ⟨⟨h.isOpen, h.fetching, h.sound⟩, rfl⟩
  | exchange x e =>
    simp only [TokenQueue.produce, hpc] at hp
    split_ifs at hp with hse hb
    · cases hp
      refine ⟨⟨nofun, fun e he => ⟨(h.fetching e he).1, x, rfl⟩, h.sound⟩, ?_⟩
      simp only [pending, if_pos (hse.trans hb)]
      rfl
    · cases hp
      refine ⟨⟨nofun, fun e he => ⟨(h.fetching e he).1, x, rfl⟩, h.sound⟩, ?_⟩
      simp only [pending, if_neg (hse ▸ hb)]
      rfl
    · cases hp
      exact ⟨⟨h.isOpen, h.fetching, h.sound⟩, rfl⟩

/-- A step of the reader in its loop. -/
theorem Holds.fetchStep (h : Holds s) {b : Bool} (hs : s.step (.step b) = some s') :
    Holds s' ∧ Balanced s (.step b) s' := by
  have hf : s.fetchStep b = some s' := hs
  unfold TokenQueue.fetchStep at hf
  cases hr : s.reader with
  | idle => rw [hr] at hf; cases hf
  | failed f => rw [hr] at hf; cases hf
  | exchange e =>
    obtain ⟨⟨x, rfl⟩, y, hy⟩ := h.fetching e hr
    rw [hr] at hf
    dsimp only at hf
    split_ifs at hf with hse
    · -- elements are fetched, and no blocked mark with them
      cases hf
      refine ⟨⟨nofun, nofun, nofun⟩, ?_⟩
      simp only [Balanced, pending, hy]
      rfl
    · rw [hy] at hf
      cases hf
      refine ⟨⟨nofun, ?_, nofun⟩, ?_⟩
      · rintro _ ⟨⟩
        exact ⟨⟨y, rfl⟩, y, rfl⟩
      · simp only [Balanced, pending, hy]
        rfl

/-- **One step** keeps the balance. -/
theorem Holds.step (h : Holds s) {a : TokenAct π A} (hs : s.step a = some s') :
    Holds s' ∧ Balanced s a s' := by
  cases a with
  | produce p => exact h.produce hs
  | step b => exact h.fetchStep hs
  | call p x =>
    simp only [TokenQueue.step] at hs
    split at hs
    next =>
      cases hs
      exact ⟨⟨h.isOpen, h.fetching, h.sound⟩, rfl⟩
    next => cases hs
  | tryBlock =>
    obtain rfl : s.tryBlock.1 = s' := Option.some.inj hs
    by_cases he : s.stack = .emptyDummy
    · have ht : s.tryBlock = ({ s with stack := .blockedDummy }, true) := if_pos he
      refine ⟨⟨?_, fun e hr => ?_, ?_⟩, ?_⟩
      · rw [ht]
        nofun
      · rw [ht] at hr
        obtain ⟨-, x, hx⟩ := h.fetching e hr
        cases he.symm.trans hx
      · rw [ht]
        exact h.sound
      · simp only [Balanced, blocks, ht, pending, he]
        rfl
    · have ht : s.tryBlock = (s, false) := if_neg he
      rw [Balanced, blocks, ht]
      exact ⟨h, rfl⟩
  | tryUnblock =>
    obtain rfl : s.tryUnblock.1 = s' := Option.some.inj hs
    by_cases he : s.stack = .blockedDummy
    · have ht : s.tryUnblock = ({ s with stack := .emptyDummy }, true) := if_pos he
      refine ⟨⟨?_, fun e hr => ?_, ?_⟩, ?_⟩
      · rw [ht]
        nofun
      · rw [ht] at hr
        obtain ⟨-, x, hx⟩ := h.fetching e hr
        cases he.symm.trans hx
      · rw [ht]
        exact h.sound
      · simp only [Balanced, unblocks, ht, pending, he]
        rfl
    · have ht : s.tryUnblock = (s, false) := if_neg he
      rw [Balanced, unblocks, ht]
      exact ⟨h, rfl⟩
  | fetch =>
    simp only [TokenQueue.step] at hs
    split at hs
    next hr =>
      split_ifs at hs with hb
      cases hs
      cases hst : s.stack with
      | null => exact absurd hst h.isOpen
      | blockedDummy => exact absurd hst hb
      | emptyDummy =>
        have hf : s.fetch = s := by unfold TokenQueue.fetch; rw [hst]
        rw [hf]
        exact ⟨h, rfl⟩
      | elem x =>
        have hf : s.fetch = { s with reader := .exchange (.elem x) } := by
          unfold TokenQueue.fetch; rw [hst]
        rw [hf]
        refine ⟨⟨h.isOpen, ?_, nofun⟩, rfl⟩
        rintro _ ⟨⟩
        exact ⟨⟨x, rfl⟩, x, hst⟩
    next => cases hs

/-- A run keeps the invariant, and balances the tokens. -/
theorem run_balance {tr : List (TokenQueue π A × TokenAct π A)} (h : (system π A).Run tr s) :
    Holds s ∧ tr.countP blocks = tr.countP wakes + tr.countP unblocks + s.pending := by
  induction h with
  | init h₀ =>
    rw [show _ = ({} : TokenQueue π A) from h₀]
    exact ⟨⟨nofun, nofun, nofun⟩, rfl⟩
  | @step tr s s' a _ hs ih =>
    obtain ⟨hI, hc⟩ := ih
    obtain ⟨hI', hb⟩ := hI.step hs
    refine ⟨hI', ?_⟩
    have hone : ∀ f : TokenQueue π A × TokenAct π A → Bool, [(s, a)].countP f = (f (s, a)).toNat := by
      intro f
      rw [List.countP_singleton]
      cases f (s, a) <;> rfl
    rw [List.countP_append, List.countP_append, List.countP_append, hone, hone, hone]
    unfold Balanced at hb
    omega

/-- **One wake-up token for each block.** In every run the blocks are as many as the wake-ups and
the withdrawn blocks, and one more while the queue is blocked. So until the queue is
blocked again at most one producer is told to wake the reader, and none unless it was blocked. -/
theorem tokens_balance {tr : List (TokenQueue π A × TokenAct π A)} (h : (system π A).Run tr s) :
    tr.countP blocks = tr.countP wakes + tr.countP unblocks + s.pending ∧
      ∀ tr' s', (system π A).Run (tr ++ tr') s' → tr'.countP blocks = 0 →
        tr'.countP wakes ≤ s.pending ∧ s.pending ≤ 1 := by
  have hb := (run_balance h).2
  refine ⟨hb, fun tr' s' h' hn => ?_⟩
  have hb' := (run_balance h').2
  rw [List.countP_append, List.countP_append, List.countP_append] at hb'
  refine ⟨by omega, ?_⟩
  unfold pending
  split_ifs <;> omega

/-- Two producers have found the queue blocked; the exchange of one of them is next, and wakes
the reader. -/
theorem tokens_balance_race :
    ∃ (tr : List (TokenQueue Bool ℕ × TokenAct Bool ℕ)) (s s' : TokenQueue Bool ℕ),
      (system Bool ℕ).Run tr s ∧ s.producer true = .exchange 1 .blockedDummy ∧
      s.producer false = .exchange 2 .blockedDummy ∧
      (system Bool ℕ).Run (tr ++ [(s, .produce true)]) s' ∧
      [(s, TokenAct.produce true)].countP wakes = 1 ∧
      tr.countP blocks = tr.countP wakes + tr.countP unblocks + s.pending ∧
      [(s, TokenAct.produce true)].countP wakes ≤ s.pending := by
  have h : ∃ (tr : List (TokenQueue Bool ℕ × TokenAct Bool ℕ)) (s : TokenQueue Bool ℕ),
      (system Bool ℕ).Run tr s ∧ tr.map Prod.snd = [.call true 1, .tryBlock, .produce true,
        .call false 2, .produce false, .produce true, .produce false] ∧
      s.producer true = .exchange 1 .blockedDummy ∧ s.producer false = .exchange 2 .blockedDummy ∧
      s.stack = .blockedDummy :=
    ⟨_, _, .step (.step (.step (.step (.step (.step (.step (.init rfl) rfl) rfl) rfl) rfl) rfl) rfl) rfl,
      rfl, rfl, rfl, rfl⟩
  obtain ⟨tr, s, hr, -, ht, hf, hs⟩ := h
  have hp : s.produce true = some ({ s.setProducer true .idle with stack := .elem 1 }, some .unblockedReader) := by
    rw [TokenQueue.produce, ht]
    simp [hs]
  have hstep : (system Bool ℕ).step s (.produce true) = some { s.setProducer true .idle with stack := .elem 1 } := by
    show (s.produce true).map _ = _
    rw [hp]
    rfl
  have hw : [(s, TokenAct.produce true)].countP wakes = 1 := by
    simp [wakes, hp]
  have hb := tokens_balance hr
  exact ⟨tr, s, _, hr, ht, hf, hr.step hstep, hw, hb.1, (hb.2 _ _ (hr.step hstep) rfl).1⟩

end TokenQueue

end ActorsFramework.Detail
