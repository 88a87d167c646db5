import ActorsFramework.Lib.Amortised
import ActorsFramework.Detail.LinkedQueue

/-!
# The queue is lock-free

What a call costs while others run. `enqueue` is a loop that begins again whenever
`stack_` was changed since it was read, and `fetch_new_data` has a loop of the same
kind and another over the elements it has taken; neither has a bound of its own.

* `produce_amortised` — an exchange of a producer fails only after an operation of
  another thread has succeeded, so each of these delays a producer by two steps
  at most.
* `read_amortised` — the reader is delayed by one step for each push, and relinks each
  element once.
* `lock_free` — both, over any stretch of any run.

The potential of a producer counts the steps to the end of its call, two more where its
exchange is going to fail; that of the reader counts its own, and one for each element that
is not in `head_` yet.
-/

namespace ActorsFramework.Detail

open Lib Lib.System

/-- The steps a producer has left when nobody else changes `stack_`. -/
def ProducerPc.left {A : Type*} [DecidableEq A] (top : Ptr A) : ProducerPc A → ℕ
  | .idle => 0
  | .load _ => 3
  | .link _ e => if top = e then 2 else 4
  | .exchange _ e => if top = e then 1 else 3

namespace ReaderPc

variable {A : Type*}

/-- The reader may still change `stack_`; counted twice. -/
def fetches : ReaderPc A → ℕ
  | .load _ | .exchange _ _ => 2
  | _ => 0

/-- The steps the reader has left when nobody changes `stack_` and there is nothing to relink. -/
def left [DecidableEq A] (top : Ptr A) : ReaderPc A → ℕ
  | .idle | .failed _ => 0
  | .load _ => 4
  | .exchange _ e => if top = e then 3 else 4
  | .relink _ _ => 2
  | .take _ => 1

end ReaderPc

namespace LinkedQueue

variable {π A V : Type*} [DecidableEq π] [DecidableEq A]

/-! ### What is counted -/

section Counts

/-- A call of `enqueue`. -/
def calls (p : π) (_ : LinkedQueue π A V) : QueueAct π A V → ℕ
  | .call q _ _ => if q = p then 1 else 0
  | _ => 0

/-- A step of `enqueue`. -/
def produces (p : π) (_ : LinkedQueue π A V) : QueueAct π A V → ℕ
  | .produce q => if q = p then 1 else 0
  | _ => 0

/-- A successful exchange of a producer. -/
def pushes (s : LinkedQueue π A V) : QueueAct π A V → ℕ
  | .produce q =>
    match s.producer q with
    | .exchange _ e => if s.stack = e then 1 else 0
    | _ => 0
  | _ => 0

/-- A successful exchange of another producer. -/
def pushesBut (p : π) (s : LinkedQueue π A V) : QueueAct π A V → ℕ
  | .produce q => if q = p then 0 else s.pushes (.produce q)
  | _ => 0

/-- A call by the reader. -/
def readerCalls (_ : LinkedQueue π A V) : QueueAct π A V → ℕ
  | .read _ | .block | .unblock => 1
  | _ => 0

/-- A call of `try_pop` or `peek`. -/
def reads (_ : LinkedQueue π A V) : QueueAct π A V → ℕ
  | .read _ => 1
  | _ => 0

/-- A step of `try_pop` or `peek`. -/
def readerSteps (_ : LinkedQueue π A V) : QueueAct π A V → ℕ
  | .step _ => 1
  | _ => 0

/-- A weak exchange that fails though `stack_` has the expected value. -/
def spurious (s : LinkedQueue π A V) : QueueAct π A V → ℕ
  | .step true =>
    match s.reader with
    | .exchange _ e => if s.stack = e then 1 else 0
    | _ => 0
  | _ => 0

end Counts

/-! ### Producers -/

section Producers

theorem left_le (pc : ProducerPc A) (top top' : Ptr A) : pc.left top' ≤ pc.left top + 2 := by
  cases pc with
  | idle | load => exact Nat.le_add_right _ 2
  | link | exchange =>
    simp only [ProducerPc.left]
    split_ifs <;> omega

theorem left_le_four (pc : ProducerPc A) (top : Ptr A) : pc.left top ≤ 4 := by
  cases pc with
  | idle => exact Nat.zero_le _
  | load => exact Nat.le_succ _
  | link | exchange =>
    simp only [ProducerPc.left]
    split_ifs <;> omega

omit [DecidableEq A] in
theorem fetches_le (pc : ReaderPc A) : pc.fetches ≤ 2 := by
  cases pc <;> simp [ReaderPc.fetches]

/-- The potential of a producer. -/
def potential (s : LinkedQueue π A V) (p : π) : ℕ := (s.producer p).left s.stack + s.reader.fetches

variable {s s' : LinkedQueue π A V}

/-- A step of `enqueue`: one less for this producer, and two more for every other one where it
changes `stack_`. -/
theorem potential_produce (p : π) {q : π} (hs : s.produce q = some s') :
    s'.potential p + produces p s (.produce q) ≤ s.potential p + 2 * pushesBut p s (.produce q) := by
  have hreader : s'.reader = s.reader := by
    unfold produce at hs
    split at hs
    · cases hs
    · cases hs; rfl
    · split_ifs at hs <;> cases hs <;> rfl
    · split_ifs at hs <;> cases hs <;> rfl
  by_cases hqp : q = p
  · subst hqp
    -- its own step
    have hleft : (s'.producer q).left s'.stack + 1 ≤ (s.producer q).left s.stack := by
      unfold produce at hs
      split at hs
      next => cases hs
      next x hp =>
        cases hs
        simp [setProducer, hp, ProducerPc.left]
      next x e hp =>
        split_ifs at hs with he
        · cases hs
          simp only [hp, Function.update_self, ProducerPc.left]
          split_ifs <;> omega
        · cases hs
          simp only [hp, Function.update_self, ProducerPc.left]
          split_ifs <;> omega
      next x e hp =>
        split_ifs at hs with he
        · cases hs
          simp [hp, ProducerPc.left, he]
        · cases hs
          simp [setProducer, hp, ProducerPc.left, he]
    simp only [potential, produces, pushesBut, hreader, if_true]
    omega
  · have hproducer : s'.producer p = s.producer p := by
      have hpq : p ≠ q := fun h => hqp h.symm
      unfold produce at hs
      split at hs
      · cases hs
      · cases hs; simp [setProducer, hpq]
      · split_ifs at hs <;> cases hs <;> simp [hpq]
      · split_ifs at hs <;> cases hs <;> simp [setProducer, hpq]
    -- `stack_` changes by a successful exchange only
    have hstack : s'.stack = s.stack ∨ s.pushes (.produce q) = 1 := by
      unfold produce at hs
      split at hs
      next => cases hs
      next => cases hs; exact .inl rfl
      next => split_ifs at hs <;> cases hs <;> exact .inl rfl
      next x e hp =>
        split_ifs at hs with he
        · exact .inr (by simp [pushes, hp, he])
        · cases hs; exact .inl rfl
    simp only [potential, produces, pushesBut, hreader, hproducer, if_neg hqp]
    rcases hstack with hst | hpush
    · rw [hst]
      omega
    · rw [hpush]
      have := left_le (s.producer p) s.stack s'.stack
      omega

omit [DecidableEq π] in
/-- A step of the reader changes `stack_` at most once in a call. -/
theorem potential_readerStep (p : π) {b : Bool} (hs : s.readerStep b = some s') :
    s'.potential p ≤ s.potential p := by
  have hproducer : s'.producer = s.producer := by
    unfold readerStep at hs
    repeat' split at hs
    all_goals cases hs <;> rfl
  have hfetch : (s'.stack = s.stack ∧ s'.reader.fetches ≤ s.reader.fetches) ∨
      s'.reader.fetches + 2 ≤ s.reader.fetches := by
    unfold readerStep at hs
    split at hs
    next => cases hs
    next => cases hs
    next op hr =>
      split at hs <;> cases hs <;> exact .inl ⟨rfl, by simp [ReaderPc.fetches, hr]⟩
    next op e hr =>
      split_ifs at hs with he
      · split at hs <;> cases hs <;> exact .inr (by simp [ReaderPc.fetches, hr])
      · split at hs <;> cases hs <;> exact .inl ⟨rfl, by simp [ReaderPc.fetches, hr]⟩
    next op e hr =>
      split at hs <;> cases hs <;> exact .inl ⟨rfl, by simp [ReaderPc.fetches]⟩
    next op hr =>
      split at hs <;> cases hs <;> exact .inl ⟨rfl, by simp [ReaderPc.fetches]⟩
  simp only [potential, hproducer]
  rcases hfetch with ⟨hst, hle⟩ | hle
  · rw [hst]
    omega
  · have := left_le (s.producer p) s.stack s'.stack
    omega

/-- **A step of anybody**, as seen by a producer. -/
theorem potential_step (p : π) {a : QueueAct π A V} (hs : s.step a = some s') :
    s'.potential p + produces p s a ≤
      s.potential p + (3 * calls p s a + 2 * (pushesBut p s a + readerCalls s a)) := by
  cases a with
  | call q x v =>
    simp only [step] at hs
    split at hs
    next hq _ =>
      cases hs
      simp only [potential, produces, calls, pushesBut, readerCalls]
      by_cases hqp : q = p
      · subst hqp
        simp only [hq, Function.update_self, ProducerPc.left, if_true]
        omega
      · have hpq : p ≠ q := fun h => hqp h.symm
        simp [hpq]
    next => cases hs
  | produce q =>
    have := potential_produce p hs
    simp only [calls, readerCalls]
    omega
  | read op =>
    simp only [step] at hs
    split at hs
    next hr =>
      have := fetches_le (A := A) s'.reader
      split_ifs at hs <;> cases hs <;>
        simp only [potential, produces, calls, pushesBut, readerCalls, ReaderPc.fetches] <;> omega
    next => cases hs
  | step b =>
    have := potential_readerStep p hs
    simp only [produces, calls, pushesBut, readerCalls]
    omega
  | block =>
    simp only [step] at hs
    split at hs
    next hr =>
      have := left_le (s.producer p) s.stack s'.stack
      cases hs
      split_ifs at this ⊢ <;>
        simp only [potential, produces, calls, pushesBut, readerCalls] at this ⊢ <;> omega
    next => cases hs
  | unblock =>
    simp only [step] at hs
    split at hs
    next hr =>
      have := left_le (s.producer p) s.stack s'.stack
      cases hs
      split_ifs at this ⊢ <;>
        simp only [potential, produces, calls, pushesBut, readerCalls] at this ⊢ <;> omega
    next => cases hs
  | delete x =>
    simp only [step] at hs
    split at hs
    next => cases hs; exact le_rfl
    next => cases hs
  | scribble x e =>
    simp only [step] at hs
    split at hs
    · cases hs; exact le_rfl
    · cases hs; exact le_rfl
    · cases hs

/-- **What a producer's calls cost.** -/
theorem produce_amortised (p : π) {tr : List (LinkedQueue π A V × QueueAct π A V)}
    (h : (system π A V).Path s tr s') :
    s'.potential p + total (produces p) tr ≤
      s.potential p + (3 * total (calls p) tr +
        2 * (total (pushesBut p) tr + total readerCalls tr)) := by
  obtain ⟨n, hn, hle⟩ := Path.amortised (P := fun s n => s.potential p = n) (produces p)
    (fun s a => 3 * calls p s a + 2 * (pushesBut p s a + readerCalls s a))
    (fun s n a s' hn hs => ⟨_, rfl, hn ▸ potential_step p hs⟩) rfl h
  rwa [total_add, total_mul, total_mul, total_add, ← hn] at hle

end Producers

/-! ### The reader -/

section Reader

variable {s s' : LinkedQueue π A V} {S L H : List A}

omit [DecidableEq π] in
theorem left_reader_le (pc : ReaderPc A) (top top' : Ptr A) : pc.left top' ≤ pc.left top + 1 := by
  cases pc with
  | exchange =>
    simp only [ReaderPc.left]
    split_ifs <;> omega
  | _ => exact Nat.le_succ _

omit [DecidableEq π] in
theorem left_reader_le_four (pc : ReaderPc A) (top : Ptr A) : pc.left top ≤ 4 := by
  cases pc with
  | exchange =>
    simp only [ReaderPc.left]
    split_ifs <;> omega
  | _ => simp [ReaderPc.left]

/-- The potential of the reader is `n`: its own steps, and one for each element that is not in
`head_` yet. -/
def Owes (s : LinkedQueue π A V) (n : ℕ) : Prop :=
  ∃ S L H, s.Holds S L H ∧ n = s.reader.left s.stack + S.length + L.length

omit [DecidableEq π] [DecidableEq A] in
/-- The reader returns. -/
theorem Holds.return (h : s.Holds S L H) (hl : s.reader.limbo = .null) :
    ({ s with reader := .idle } : LinkedQueue π A V).Holds S L H := by
  apply h.setReader
  · exact hl.symm
  · intro f hf
    cases hf
  · intro op hop
    cases hop
  · intro op e hop
    cases hop
  · intro op e hop
    cases hop
  · intro op hop
    cases hop

omit [DecidableEq π] [DecidableEq A] in
/-- The reader goes to `take_head`. -/
theorem Holds.goTake (h : s.Holds S L H) (op : ReaderOp) (hl : s.reader.limbo = .null)
    (hne : s.head ≠ .null) :
    ({ s with reader := .take op } : LinkedQueue π A V).Holds S L H := by
  apply h.setReader
  · exact hl.symm
  · intro f hf
    cases hf
  · intro op hop
    cases hop
  · intro op e hop
    cases hop
  · intro op e hop
    cases hop
  · intro op _
    exact hne

omit [DecidableEq π] [DecidableEq A] in
/-- The reader goes to the load of `stack_`. -/
theorem Holds.goLoad (h : s.Holds S L H) (op : ReaderOp) (hl : s.reader.limbo = .null)
    (hnull : s.head = .null) (hb : s.stack ≠ .blockedDummy) :
    ({ s with reader := .load op } : LinkedQueue π A V).Holds S L H := by
  apply h.setReader
  · exact hl.symm
  · intro f hf
    cases hf
  · intro op _
    exact ⟨hnull, hb⟩
  · intro op e hop
    cases hop
  · intro op e hop
    cases hop
  · intro op hop
    cases hop

omit [DecidableEq π] [DecidableEq A] in
/-- The reader goes to the exchange, with the top of the stack read. -/
theorem Holds.goExchange (h : s.Holds S L H) (op : ReaderOp) (hl : s.reader.limbo = .null)
    (hnull : s.head = .null) (hb : s.stack ≠ .blockedDummy) (he : s.stack ≠ .emptyDummy) :
    ({ s with reader := .exchange op s.stack } : LinkedQueue π A V).Holds S L H := by
  apply h.setReader
  · exact hl.symm
  · intro f hf
    cases hf
  · intro op hop
    cases hop
  · intro op e hop
    cases hop
    refine ⟨hnull, hb, ?_⟩
    cases hst : s.stack with
    | null => exact absurd hst h.isOpen
    | emptyDummy => exact absurd hst he
    | blockedDummy => exact absurd hst hb
    | elem x => exact ⟨x, rfl⟩
  · intro op e hop
    cases hop
  · intro op hop
    cases hop

/-- A step of `enqueue`: a push is an element more, and may make the reader's exchange fail. -/
theorem owes_produce (h : s.Holds S L H) {p : π} (hs : s.produce p = some s') :
    ∃ n, s'.Owes n ∧
      n ≤ s.reader.left s.stack + S.length + L.length + 2 * s.pushes (.produce p) := by
  unfold produce at hs
  split at hs
  next => cases hs
  next x hp =>
    cases hs
    have hobj : (s.producer p).object = some x := by rw [hp]; rfl
    refine ⟨_, ⟨S, L, H, h.setProducer _ (fun y hy => ?_) (by simp), rfl⟩, Nat.le_add_right _ _⟩
    obtain rfl : x = y := Option.some.inj hy
    exact hobj
  next x e hp =>
    split_ifs at hs with he
    · cases hs
      exact ⟨_, ⟨S, L, H, h.reject (by rw [hp]; rfl), rfl⟩, Nat.le_add_right _ _⟩
    · cases hs
      exact ⟨_, ⟨S, L, H, h.link hp he, rfl⟩, Nat.le_add_right _ _⟩
  next x e hp =>
    split_ifs at hs with he
    · cases hs
      refine ⟨_, ⟨x :: S, L, H, h.push hp he, rfl⟩, ?_⟩
      have := left_reader_le s.reader s.stack (.elem x)
      simp only [pushes, hp, if_pos he, List.length_cons]
      omega
    · cases hs
      have hobj : (s.producer p).object = some x := by rw [hp]; rfl
      refine ⟨_, ⟨S, L, H, h.setProducer _ (fun y hy => ?_) (by simp), rfl⟩, Nat.le_add_right _ _⟩
      obtain rfl : x = y := Option.some.inj hy
      exact hobj

omit [DecidableEq π] in
/-- The exchange of `fetch_new_data`: one less where it succeeds, and where it fails after a push. -/
theorem owes_exchange (h : s.Holds S L H) {op : ReaderOp} {e : Ptr A} (hr : s.reader = .exchange op e)
    {b : Bool} (hs : s.readerStep b = some s') :
    ∃ n, s'.Owes n ∧
      n + 1 ≤ s.reader.left s.stack + S.length + L.length + s.spurious (.step b) := by
  obtain ⟨hnull, hblock, x, rfl⟩ := h.exchanging op e hr
  simp only [readerStep, hr] at hs
  split_ifs at hs with hst
  · -- the whole stack is taken
    cases hs
    obtain ⟨rfl, rfl, h'⟩ := h.fetch hr hst.1
    refine ⟨_, ⟨[], S, [], h', rfl⟩, ?_⟩
    simp only [hr, ReaderPc.left, if_pos hst.1, List.length_nil]
    omega
  · -- it fails for no reason, or because `stack_` was changed
    have hpaid : 4 ≤ s.reader.left s.stack + s.spurious (.step b) := by
      by_cases hse : s.stack = .elem x
      · obtain rfl : b = true := by simpa [hse] using hst
        simp [hr, ReaderPc.left, spurious, hse]
      · simp [hr, ReaderPc.left, hse]
    split at hs
    next hse =>
      cases hs
      refine ⟨_, ⟨S, L, H, h.return (by rw [hr]; rfl), rfl⟩, ?_⟩
      change 0 + S.length + L.length + 1 ≤ _
      omega
    next hse =>
      cases hs
      refine ⟨_, ⟨S, L, H, h.goExchange op (by rw [hr]; rfl) hnull hblock hse, rfl⟩, ?_⟩
      change ReaderPc.left s.stack (.exchange op s.stack) + S.length + L.length + 1 ≤ _
      rw [ReaderPc.left, if_pos rfl]
      omega

omit [DecidableEq π] in
/-- Every step of the reader is one less. -/
theorem owes_readerStep (h : s.Holds S L H) {b : Bool} (hs : s.readerStep b = some s') :
    ∃ n, s'.Owes n ∧
      n + 1 ≤ s.reader.left s.stack + S.length + L.length + s.spurious (.step b) := by
  cases hr : s.reader with
  | idle => simp only [readerStep, hr] at hs; cases hs
  | failed f => exact absurd hr (h.sound f)
  | load op =>
    obtain ⟨hnull, hblock⟩ := h.fetching op hr
    simp only [readerStep, hr] at hs
    split at hs
    next hst => exact absurd hst h.isOpen
    next hst => exact absurd hst hblock
    next hst =>
      cases hs
      refine ⟨_, ⟨S, L, H, h.return (by rw [hr]; rfl), rfl⟩, ?_⟩
      simp only [ReaderPc.left]
      omega
    next hn hb he =>
      cases hs
      refine ⟨_, ⟨S, L, H, h.goExchange op (by rw [hr]; rfl) hnull hblock he, rfl⟩, ?_⟩
      simp only [ReaderPc.left, if_true]
      omega
  | exchange op e => exact hr ▸ owes_exchange h hr hs
  | relink op e =>
    have hlim := h.limbo_cases
    rw [hr] at hlim
    simp only [readerStep, hr] at hs
    rcases hlim with he | ⟨x, he⟩
    · -- nothing is left to relink
      obtain rfl : e = .null := he
      cases hs
      have hne : s.head ≠ .null := (h.relinking op .null hr).resolve_left fun hne => hne rfl
      refine ⟨_, ⟨S, L, H, h.goTake op (by rw [hr]; rfl) hne, rfl⟩, ?_⟩
      simp only [ReaderPc.left]
      omega
    · -- an element goes to `head_`
      obtain rfl : e = .elem x := he
      cases hs
      obtain ⟨L', rfl, h'⟩ := h.relink hr
      refine ⟨_, ⟨S, L', x :: H, h', rfl⟩, ?_⟩
      simp only [ReaderPc.left, List.length_cons]
      omega
  | take op =>
    obtain ⟨x, hx⟩ := h.head_cases.resolve_left (h.taking op hr)
    simp only [readerStep, hr] at hs
    cases op with
    | peek =>
      cases hs
      refine ⟨_, ⟨S, L, H, h.return (by rw [hr]; rfl), rfl⟩, ?_⟩
      simp only [ReaderPc.left]
      omega
    | pop =>
      rw [hx] at hs
      cases hs
      obtain ⟨rfl, H', rfl, h'⟩ := h.take hr hx
      refine ⟨_, ⟨S, [], H', h', rfl⟩, ?_⟩
      simp only [ReaderPc.left]
      omega

omit [DecidableEq π] in
/-- Between its operations the reader may put one dummy in place of the other. -/
theorem owes_dummy (h : s.Holds S L H) (hr : s.reader = .idle) (d e : Ptr A) (hd : d.link = .null)
    (he : e.link = .null) (hne : e ≠ .null) :
    ∃ n, Owes (if s.stack = d then { s with stack := e } else s) n ∧
      n ≤ s.reader.left s.stack + S.length + L.length := by
  split_ifs with hs
  · have hl : s.stack.link = .null := by rw [hs, hd]
    refine ⟨_, ⟨[], L, H, h.setDummy hr hl he hne, rfl⟩, ?_⟩
    simp only [hr, ReaderPc.left, List.length_nil]
    omega
  · exact ⟨_, ⟨S, L, H, h, rfl⟩, le_rfl⟩

/-- **A step of anybody**, as seen by the reader. -/
theorem owes_step {n : ℕ} {a : QueueAct π A V} (h : s.Owes n) (hs : s.step a = some s') :
    ∃ n', s'.Owes n' ∧
      n' + readerSteps s a ≤ n + (4 * reads s a + (2 * s.pushes a + s.spurious a)) := by
  obtain ⟨S, L, H, h, rfl⟩ := h
  cases a with
  | call p x v =>
    simp only [step] at hs
    split at hs
    next hp hx =>
      cases hs
      exact ⟨_, ⟨S, L, H, h.call v hx, rfl⟩, Nat.le_add_right _ _⟩
    next => cases hs
  | produce p =>
    obtain ⟨n', hn, hle⟩ := owes_produce h hs
    refine ⟨n', hn, ?_⟩
    simp only [readerSteps, reads, spurious]
    omega
  | read op =>
    simp only [step] at hs
    split at hs
    next hr =>
      have hz : s.reader.left s.stack = 0 := by rw [hr]; rfl
      split_ifs at hs with hn hb
      · cases hs
        refine ⟨_, ⟨S, L, H, h.goLoad op (by rw [hr]; rfl) hn hb, rfl⟩, ?_⟩
        simp only [ReaderPc.left, readerSteps, reads]
        omega
      · cases hs
        refine ⟨_, ⟨S, L, H, h.goTake op (by rw [hr]; rfl) hn, rfl⟩, ?_⟩
        simp only [ReaderPc.left, readerSteps, reads]
        omega
    next => cases hs
  | step b =>
    obtain ⟨n', hn, hle⟩ := owes_readerStep h hs
    refine ⟨n', hn, ?_⟩
    simp only [readerSteps, reads, pushes]
    omega
  | block =>
    simp only [step] at hs
    split at hs
    next hr =>
      cases hs
      obtain ⟨n', hn, hle⟩ := owes_dummy h hr .emptyDummy .blockedDummy rfl rfl (by simp)
      exact ⟨n', hn, hle.trans (Nat.le_add_right _ _)⟩
    next => cases hs
  | unblock =>
    simp only [step] at hs
    split at hs
    next hr =>
      cases hs
      obtain ⟨n', hn, hle⟩ := owes_dummy h hr .blockedDummy .emptyDummy rfl rfl (by simp)
      exact ⟨n', hn, hle.trans (Nat.le_add_right _ _)⟩
    next => cases hs
  | delete x =>
    simp only [step] at hs
    split at hs
    next hx =>
      cases hs
      refine ⟨_, ⟨S, L, H, h.setCell (by simp [hx]) (by simp) fun p hp => ?_, rfl⟩, Nat.le_add_right _ _⟩
      have := h.pushing p x hp
      rw [hx] at this
      cases this
    next => cases hs
  | scribble x e =>
    have hfree : s.cell x ≠ .queued → s.cell x ≠ .pushing →
        ∃ n', Owes { s with next := Function.update s.next x e } n' ∧
          n' ≤ s.reader.left s.stack + S.length + L.length := by
      intro hq hp
      refine ⟨_, ⟨S, L, H, h.setNext hq e fun p e' hpe => ?_, rfl⟩, le_rfl⟩
      exact hp (h.pushing p x (by rw [hpe]; rfl))
    simp only [step] at hs
    split at hs
    next hx => cases hs; exact hfree (by simp [hx]) (by simp [hx])
    next hx => cases hs; exact hfree (by simp [hx]) (by simp [hx])
    next => cases hs

/-- **What the reader's calls cost.** -/
theorem read_amortised {n : ℕ} {tr : List (LinkedQueue π A V × QueueAct π A V)} (hn : s.Owes n)
    (h : (system π A V).Path s tr s') :
    total readerSteps tr ≤ n + (4 * total reads tr + (2 * total pushes tr + total spurious tr)) := by
  obtain ⟨n', -, hle⟩ := Path.amortised (P := Owes) readerSteps
    (fun s a => 4 * reads s a + (2 * s.pushes a + s.spurious a))
    (fun s n a s' hn hs => owes_step hn hs) hn h
  rw [total_add, total_mul, total_add, total_mul] at hle
  omega

end Reader

/-- **Lock-freedom**. Over any stretch of any run, from any reachable state, a producer takes at
most three steps for each of its calls, two for each exchange with which another producer ends
a call, two for each call of the reader, and six for the calls it found under way. The reader
takes at most four for each call of `try_pop` or `peek`, two for each exchange with which a
producer ends a call, one for each failure of its own exchange that has no reason, and what it
found: one for each element stored, and four for a call under way. -/
theorem lock_free {s s' : LinkedQueue π A V} (hr : (system π A V).Reachable s)
    {tr : List (LinkedQueue π A V × QueueAct π A V)} (h : (system π A V).Path s tr s') :
    (∀ p, total (produces p) tr ≤
      3 * total (calls p) tr + 2 * (total (pushesBut p) tr + total readerCalls tr) + 6) ∧
    total readerSteps tr ≤ 4 * total reads tr + 2 * total pushes tr + total spurious tr +
      (s.order.length - s.returned.length) + 4 := by
  constructor
  · intro p
    have hle := produce_amortised p h
    have h₁ := left_le_four (s.producer p) s.stack
    have h₂ := fetches_le s.reader
    simp only [potential] at hle
    omega
  · obtain ⟨q, -, S, L, H, hI, -⟩ := refines.reachable hr
    have hle := read_amortised ⟨S, L, H, hI, rfl⟩ h
    have h₁ := left_reader_le_four s.reader s.stack
    have hlen := congrArg List.length hI.fifo
    simp only [List.length_append, List.length_map, List.length_reverse] at hlen
    omega

/-- Two producers push while the reader fetches: the exchange of the second fails once, and so
does that of the reader. -/
theorem lock_free_two :
    ∃ (s s' : LinkedQueue Bool (Fin 2) ℕ) (tr : List (LinkedQueue Bool (Fin 2) ℕ × QueueAct Bool (Fin 2) ℕ)),
      (system Bool (Fin 2) ℕ).Reachable s ∧ (system Bool (Fin 2) ℕ).Path s tr s' ∧
      s'.order = [7, 8] ∧ s'.returned = [7] ∧
      total (produces true) tr = 5 ∧ total (calls true) tr = 1 ∧ total (pushesBut true) tr = 1 ∧
      total (produces true) tr ≤
        3 * total (calls true) tr + 2 * (total (pushesBut true) tr + total readerCalls tr) + 6 := by
  have h₀ : (system Bool (Fin 2) ℕ).Init { next := fun _ => .null, val := fun _ => 0 } :=
    ⟨rfl, rfl, fun _ => rfl, fun _ => rfl, rfl, rfl, rfl⟩
  obtain ⟨s', hs, ho, hret⟩ : ∃ s', (system Bool (Fin 2) ℕ).replay (fun _ _ => true)
      { next := fun _ => .null, val := fun _ => 0 }
      [.call false 0 7, .call true 1 8, .produce false, .produce true, .produce true, .produce false,
        .produce false, .read .pop, .step false, .produce true, .produce true, .produce true,
        .step true, .step false, .step false, .step false, .step false, .step false] = some s' ∧
      s'.order = [7, 8] ∧ s'.returned = [7] := ⟨_, rfl, rfl, rfl⟩
  have hp := path_of_replay hs
  exact ⟨_, s', _, ⟨[], .init h₀⟩, hp, ho, hret, rfl, rfl, rfl,
    (lock_free ⟨[], .init h₀⟩ hp).1 true⟩

end LinkedQueue

end ActorsFramework.Detail
