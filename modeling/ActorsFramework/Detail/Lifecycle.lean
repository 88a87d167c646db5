import ActorsFramework.Lib.Tally
import ActorsFramework.Detail.LinkedQueue
import ActorsFramework.Detail.Close

/-!
# The life of an element

Who owns an element of a `single_reader_queue`, from the call of `enqueue` to the
element's deletion, while any number of producers are inside `enqueue` and the
reader works with the queue and at last closes it. A producer's accesses of
`stack_` are one step each, and so are those of `close`, between which producers go
on. Reading and caching are taken as a whole: `ActorsFramework.Detail.LinkedQueue`
has the reader's steps in `try_pop`.

* `LifeState.step` — a step of a producer, or of the reader.
* `Ledger` — what the places of all elements add up to.
* `each_element_once` — at any moment an element is at one place; when the queue has
  been closed each has been handed to the reader or deleted, once.
-/

namespace ActorsFramework.Detail

open Lib

/-- Where the reader is in `close`. -/
inductive ClosePc (A : Type*) where
  /-- Not in it. -/
  | outside
  /-- `head_` is cleared: at `blocked()`. -/
  | test
  /-- In `fetch_new_data(nullptr)`, at `stack_.load()`. -/
  | load
  /-- In its loop, at `compare_exchange_weak`. -/
  | exchange (e : Ptr A)
  /-- It has fetched elements: before the second `clear_cached_elements`. -/
  | rest
  /-- Before `cache_.clear(f)`. -/
  | cache
  /-- An assertion has failed. -/
  | failed (f : Fault)

/-- The queue, its users, and what became of the elements. -/
structure LifeState (π A : Type*) where
  /-- The queue. -/
  mailbox : Mailbox A := {}
  /-- The producers. -/
  producer : π → ProducerPc A := fun _ => .idle
  /-- The reader. -/
  reader : ClosePc A := .outside
  /-- The elements `enqueue` was called with. -/
  given : List A := []
  /-- The elements the reader has. -/
  popped : List A := []
  /-- The elements `f` was applied to. -/
  visited : List A := []
  /-- The elements deleted. -/
  deleted : List A := []
  /-- What `enqueue` returned. -/
  results : List (A × EnqueueResult) := []

/-- The actions. -/
inductive LifeAct (π A : Type*) where
  /-- A producer calls `enqueue`. -/
  | call (p : π) (x : A)
  /-- Its next step. -/
  | produce (p : π)
  /-- `try_pop`. -/
  | tryPop
  /-- `try_block`. -/
  | tryBlock
  /-- `try_unblock`. -/
  | tryUnblock
  /-- `peek`. -/
  | peek
  /-- `count`. -/
  | count (maxCount : ℕ)
  /-- An element the reader has goes to the first part of the cache. -/
  | insertFirst (i : ℕ) (x : A)
  /-- An element the reader has goes to the second part of the cache. -/
  | insertSecond (i : ℕ) (x : A)
  /-- The reader takes an element out of the cache. -/
  | take (x : A)
  /-- `close`, as the destructor calls it: if the queue is not closed. -/
  | close
  /-- The next step of `close`; a weak exchange may fail for no reason. -/
  | next (spurious : Bool)

namespace LifeState

variable {π A : Type*}

/-- The reader visits the elements in turn, and deletes them. -/
def clear (s : LifeState π A) (l : List A) : LifeState π A :=
  { s with visited := s.visited ++ l, deleted := s.deleted ++ l }

variable [DecidableEq A]

/-- The next step of `close`. -/
def closeStep (s : LifeState π A) (spurious : Bool) : Option (LifeState π A) :=
  let q := s.mailbox
  match s.reader with
  | .outside => none
  | .failed _ => none
  | .test => some { s with reader := if q.isBlocked then .cache else .load }
  | .load =>
    match q.stack.top with
    | .null => some { s with reader := .failed .fetchClosed }
    | .blockedDummy => some { s with reader := .failed .fetchBlocked }
    | e => some { s with reader := .exchange e }
  | .exchange e =>
    if q.stack.top = e ∧ spurious = false then
      match e with
      | .blockedDummy =>
        some { s with mailbox := { q with stack := .closed }, reader := .failed .fetchBlocked }
      | .elem _ =>
        some { s with mailbox := { q with stack := .closed, head := Mailbox.relink q.stack.elems q.head },
                      reader := .rest }
      | _ => some { s with mailbox := { q with stack := .closed }, reader := .cache }
    else if q.stack.top.isNull then some { s with reader := .cache }
    else some { s with reader := .exchange q.stack.top }
  | .rest => some { s.clear q.head with mailbox := { q with head := [] }, reader := .cache }
  | .cache =>
    some { s.clear (q.cache.first ++ q.cache.second) with
           mailbox := { q with cache := {} }, reader := .outside }

/-- A call of the reader that changes nothing but the queue, if it returns. -/
def readCall (s : LifeState π A) (r : Except Fault (Mailbox A)) : Option (LifeState π A) :=
  match s.reader, r with
  | .outside, .ok q => some { s with mailbox := q }
  | _, _ => none

variable [DecidableEq π]

/-- A producer moves on. -/
def setProducer (s : LifeState π A) (p : π) (pc : ProducerPc A) : LifeState π A :=
  { s with producer := Function.update s.producer p pc }

/-- The next step of `enqueue`. -/
def produce (s : LifeState π A) (p : π) : Option (LifeState π A) :=
  match s.producer p with
  | .idle => none
  | .load x => some (s.setProducer p (.link x s.mailbox.stack.top))
  | .link x e =>
    if e.isNull then
      some { s.setProducer p .idle with
             deleted := s.deleted ++ [x], results := s.results ++ [(x, .queueClosed)] }
    else some (s.setProducer p (.exchange x e))
  | .exchange x e =>
    if s.mailbox.stack.top = e then
      some { s.setProducer p .idle with
             mailbox := (s.mailbox.enqueue x).1, results := s.results ++ [(x, (s.mailbox.enqueue x).2)] }
    else some (s.setProducer p (.link x s.mailbox.stack.top))

/-- The step function. -/
def step (s : LifeState π A) : LifeAct π A → Option (LifeState π A)
  | .call p x =>
    match s.producer p with
    | .idle =>
      if x ∈ s.given then none
      else some { s.setProducer p (.load x) with given := s.given ++ [x] }
    | _ => none
  | .produce p => s.produce p
  | .tryPop =>
    match s.reader, s.mailbox.tryPop with
    | .outside, .ok (q, r) => some { s with mailbox := q, popped := s.popped ++ r.toList }
    | _, _ => none
  | .tryBlock => s.readCall (.ok s.mailbox.tryBlock.1)
  | .tryUnblock => s.readCall (.ok s.mailbox.tryUnblock.1)
  | .peek => s.readCall (s.mailbox.peek.map Prod.fst)
  | .count m => s.readCall ((s.mailbox.count m).map Prod.fst)
  | .insertFirst i x =>
    match s.reader with
    | .outside =>
      if x ∈ s.popped ∧ i ≤ s.mailbox.cache.first.length ∧ s.mailbox.closed = false then
        some { s with mailbox := { s.mailbox with cache := s.mailbox.cache.insertFirst i x },
                      popped := s.popped.erase x }
      else none
    | _ => none
  | .insertSecond i x =>
    match s.reader with
    | .outside =>
      if x ∈ s.popped ∧ i ≤ s.mailbox.cache.second.length ∧ s.mailbox.closed = false then
        some { s with mailbox := { s.mailbox with cache := s.mailbox.cache.insertSecond i x },
                      popped := s.popped.erase x }
      else none
    | _ => none
  | .take x =>
    match s.reader with
    | .outside =>
      if x ∈ s.mailbox.cache.first ++ s.mailbox.cache.second then
        some { s with mailbox := { s.mailbox with cache := s.mailbox.cache.take x },
                      popped := s.popped ++ [x] }
      else none
    | _ => none
  | .close =>
    match s.reader with
    | .outside =>
      if s.mailbox.closed then none
      else some { s.clear s.mailbox.head with
                  mailbox := { s.mailbox with head := [] }, reader := .test }
    | _ => none
  | .next spurious => s.closeStep spurious

end LifeState

/-- The queue and its users as a system: it starts with the queue as it is made. -/
def lifeSystem (π A : Type*) [DecidableEq π] [DecidableEq A] : System (LifeState π A) (LifeAct π A) where
  Init s := s = {}
  step := LifeState.step

/-! ### What the reader's calls do to the queue -/

namespace Mailbox

variable {A : Type*}

/-- The elements stay in the queue, and it is as closed as before. -/
structure Rearranges (q q' : Mailbox A) : Prop where
  /-- No element is added or lost. -/
  perm : q'.stored.Perm q.stored
  /-- The queue is neither closed nor opened. -/
  shut : q'.stack = .closed ↔ q.stack = .closed

theorem Rearranges.refl (q : Mailbox A) : Rearranges q q := ⟨.refl _, .rfl⟩

theorem rearranges_fetchNewData {q q' : Mailbox A} {b : Bool} (h : q.fetchNewData = .ok (q', b)) :
    Rearranges q q' := by
  refine ⟨stored_fetchNewData h, ?_⟩
  obtain ⟨l, hs, rfl⟩ := fetchNewData_ok h
  simp [hs]

theorem rearranges_tryBlock (q : Mailbox A) : Rearranges q q.tryBlock.1 := by
  refine ⟨.of_eq (stored_tryBlock q), ?_⟩
  unfold tryBlock
  split
  next h => simp [h]
  next => rfl

theorem rearranges_tryUnblock (q : Mailbox A) : Rearranges q q.tryUnblock.1 := by
  refine ⟨.of_eq (stored_tryUnblock q), ?_⟩
  by_cases hb : q.stack = .blocked
  · rw [tryUnblock_of_blocked hb, hb]
    simp
  · rw [tryUnblock_of_ne hb]

theorem rearranges_peek {q q' : Mailbox A} {r : Option A} (h : q.peek = .ok (q', r)) :
    Rearranges q q' := by
  refine ⟨stored_peek h, ?_⟩
  unfold peek at h
  split at h
  next => cases h; exact .rfl
  next =>
    cases hf : q.fetchNewData with
    | error e => rw [hf] at h; cases h
    | ok p =>
      obtain ⟨q₁, b⟩ := p
      rw [hf] at h
      cases b <;> cases h <;> exact (rearranges_fetchNewData hf).shut

theorem rearranges_count {q q' : Mailbox A} {m n : ℕ} (h : q.count m = .ok (q', n)) :
    Rearranges q q' := by
  refine ⟨stored_count h, ?_⟩
  simp only [count] at h
  split_ifs at h
  next => cases h; exact .rfl
  next =>
    cases hf : q.fetchNewData with
    | error e => rw [hf] at h; cases h
    | ok p => rw [hf] at h; cases h; exact (rearranges_fetchNewData hf).shut

/-- `try_pop` hands over an element it takes out, and no other. -/
theorem perm_tryPop {q q' : Mailbox A} {r : Option A} (h : q.tryPop = .ok (q', r)) :
    (r.toList ++ q'.stored).Perm q.stored ∧ (q'.stack = .closed ↔ q.stack = .closed) := by
  have hpop : ∀ {q₁ : Mailbox A}, q₁.popHead = .ok (q', r) →
      (r.toList ++ q'.stored).Perm q₁.stored ∧ (q'.stack = .closed ↔ q₁.stack = .closed) := by
    rintro ⟨stack, head, cache⟩ h
    cases head with
    | nil => cases h
    | cons y head => cases h; exact ⟨.refl _, .rfl⟩
  unfold tryPop at h
  split at h
  next =>
    cases hf : q.fetchNewData with
    | error e => rw [hf] at h; cases h
    | ok p =>
      obtain ⟨q₁, b⟩ := p
      have hr := rearranges_fetchNewData hf
      rw [hf] at h
      cases b with
      | false => cases h; exact ⟨hr.perm, hr.shut⟩
      | true => exact ⟨(hpop h).1.trans hr.perm, (hpop h).2.trans hr.shut⟩
  next => exact hpop h

end Mailbox

/-! ### The ledger -/

namespace LifeState

variable {π A : Type*}

/-- What is true where the reader is. -/
def ReaderOk (q : Mailbox A) : ClosePc A → Prop
  | .outside => q.stack = .closed → q.stored = []
  | .test => q.head = [] ∧ q.stack ≠ .closed
  | .load => q.head = [] ∧ q.Open
  | .exchange e => q.head = [] ∧ q.Open ∧ e ≠ .null ∧ e ≠ .blockedDummy
  | .rest => q.stack = .closed
  | .cache => q.head = []
  | .failed _ => False

variable [DecidableEq A]

/-- `1` for a producer that carries the element. -/
def carries (x : A) (pc : ProducerPc A) : ℕ := if pc.object = some x then 1 else 0

variable [Fintype π]

/-- What the places of the elements add up to, and what is true of the users. -/
structure Ledger (s : LifeState π A) : Prop where
  /-- Each element is at as many places as it was handed to `enqueue` times. -/
  place : ∀ x, tally (carries x) s.producer + s.mailbox.stored.count x + s.popped.count x +
    s.deleted.count x = s.given.count x
  /-- It is handed to `enqueue` once. -/
  fresh : s.given.Nodup
  /-- Each call of `enqueue` is answered or going on. -/
  answered : ∀ x, tally (carries x) s.producer + (s.results.map Prod.fst).count x = s.given.count x
  /-- `close` deletes what it visits, `enqueue` what it refuses. -/
  disposed : ∀ x, s.deleted.count x = s.visited.count x + s.results.count (x, .queueClosed)
  /-- `enqueue` refuses an element only when the queue is closed, -/
  refused : ∀ x, (x, .queueClosed) ∈ s.results → s.mailbox.stack = .closed
  /-- which it has read then. -/
  read : ∀ p x, s.producer p = .link x .null → s.mailbox.stack = .closed
  /-- It does not go on then. -/
  live : ∀ p x, s.producer p ≠ .exchange x .null
  /-- The reader is where it should be. -/
  reader : ReaderOk s.mailbox s.reader

theorem ledger_init : Ledger ({} : LifeState π A) where
  place x := by simp [tally, carries, ProducerPc.object, Mailbox.stored, Mailbox.waiting]
  fresh := List.nodup_nil
  answered x := by simp [tally, carries, ProducerPc.object]
  disposed x := by simp
  refused x := by simp
  read := by simp
  live := by simp
  reader := by simp [ReaderOk]

variable {s s' : LifeState π A}

/-- A step of the reader. -/
theorem Ledger.ofReader (h : Ledger s) (hp : s'.producer = s.producer) (hg : s'.given = s.given)
    (hr : s'.results = s.results)
    (hplace : ∀ x, s'.mailbox.stored.count x + s'.popped.count x + s'.deleted.count x =
      s.mailbox.stored.count x + s.popped.count x + s.deleted.count x)
    (hdis : ∀ x, s'.deleted.count x + s.visited.count x = s.deleted.count x + s'.visited.count x)
    (hshut : s.mailbox.stack = .closed → s'.mailbox.stack = .closed)
    (hread : ReaderOk s'.mailbox s'.reader) : Ledger s' where
  place x := by
    have h₁ := h.place x
    have h₂ := hplace x
    rw [hp, hg]
    omega
  fresh := by rw [hg]; exact h.fresh
  answered := by rw [hp, hr, hg]; exact h.answered
  disposed x := by
    have h₁ := h.disposed x
    have h₂ := hdis x
    rw [hr]
    omega
  refused x hx := hshut (h.refused x (hr ▸ hx))
  read p x hx := hshut (h.read p x (hp ▸ hx))
  live := by rw [hp]; exact h.live
  reader := hread

/-- A call of the reader that only rearranges the queue. -/
theorem Ledger.readCall (h : Ledger s) {r : Except Fault (Mailbox A)}
    (hr : ∀ q, r = .ok q → s.mailbox.Rearranges q) (hs : s.readCall r = some s') : Ledger s' := by
  unfold LifeState.readCall at hs
  split at hs
  next q hout =>
    cases hs
    have hq' := hr q rfl
    refine h.ofReader rfl rfl rfl (fun x => ?_) (fun _ => rfl) hq'.shut.mpr ?_
    · change q.stored.count x + _ + _ = _
      rw [hq'.perm.count_eq]
    · have ho := h.reader
      rw [hout] at ho ⊢
      intro hc
      have := hq'.perm
      rw [ho (hq'.shut.mp hc)] at this
      exact List.Perm.eq_nil this
  next => cases hs

/-- What a step of the reader disposes of was in the queue. -/
theorem Ledger.clear (h : Ledger s) {l : List A} {q : Mailbox A} {pc : ClosePc A}
    (hq : (l ++ q.stored).Perm s.mailbox.stored) (hshut : s.mailbox.stack = .closed → q.stack = .closed)
    (hread : ReaderOk q pc) : Ledger { s.clear l with mailbox := q, reader := pc } := by
  refine h.ofReader rfl rfl rfl (fun x => ?_) (fun x => ?_) hshut hread
  · have := hq.count_eq x
    simp only [LifeState.clear, List.count_append] at this ⊢
    omega
  · simp only [LifeState.clear, List.count_append]
    omega

/-- A step of the reader that disposes of nothing. -/
theorem Ledger.goes (h : Ledger s) {q : Mailbox A} {pc : ClosePc A}
    (hq : q.stored.Perm s.mailbox.stored) (hshut : s.mailbox.stack = .closed → q.stack = .closed)
    (hread : ReaderOk q pc) : Ledger { s with mailbox := q, reader := pc } := by
  refine h.ofReader rfl rfl rfl (fun x => ?_) (fun _ => rfl) hshut hread
  change q.stored.count x + _ + _ = _
  rw [hq.count_eq]

omit [DecidableEq A] [Fintype π] in
theorem stored_relink {q : Mailbox A} (hh : q.head = []) :
    ({ q with stack := .closed, head := Mailbox.relink q.stack.elems q.head } : Mailbox A).stored =
      q.stored := by
  simp [Mailbox.stored, Mailbox.waiting, Mailbox.relink_eq, hh]

/-- A step of `close`. -/
theorem Ledger.closeStep (h : Ledger s) {spurious : Bool} (hs : s.closeStep spurious = some s') :
    Ledger s' := by
  have ho := h.reader
  unfold LifeState.closeStep at hs
  dsimp only at hs
  split at hs
  next => cases hs
  next => cases hs
  next hpc =>
    cases hs
    rw [hpc] at ho
    obtain ⟨hh, hne⟩ := ho
    refine h.goes (.refl _) id ?_
    split_ifs with hb
    · exact hh
    · refine ⟨hh, ?_⟩
      cases hst : s.mailbox.stack with
      | closed => exact absurd hst hne
      | blocked => exact absurd (Mailbox.isBlocked_iff.mpr hst) hb
      | list l => exact ⟨l, hst⟩
  next hpc =>
    rw [hpc] at ho
    obtain ⟨hh, l, hl⟩ := ho
    have hopen : s.mailbox.Open := ⟨l, hl⟩
    rw [hl] at hs
    cases l with
    | nil => cases hs; exact h.goes (.refl _) id ⟨hh, hopen, by simp, by simp⟩
    | cons y l => cases hs; exact h.goes (.refl _) id ⟨hh, hopen, by simp, by simp⟩
  next e hpc =>
    rw [hpc] at ho
    obtain ⟨hh, ⟨l, hl⟩, hnull, hblocked⟩ := ho
    have hopen : s.mailbox.Open := ⟨l, hl⟩
    split_ifs at hs with htop hnull'
    · cases e with
      | null => exact absurd rfl hnull
      | blockedDummy => exact absurd rfl hblocked
      | emptyDummy =>
        cases hs
        have hempty := Stack.top_eq_emptyDummy.mp htop.1
        exact h.goes (.of_eq (by simp [Mailbox.stored, Mailbox.waiting, hempty])) (fun _ => rfl) hh
      | elem y =>
        cases hs
        exact h.goes (.of_eq (stored_relink hh)) (fun _ => rfl) rfl
    · rw [hl, Stack.isNull_top_list] at hnull'
      cases hnull'
    · cases hs
      refine h.goes (.refl _) id ⟨hh, hopen, ?_, ?_⟩
      · intro htop'
        rw [Stack.top_eq_null, hl] at htop'
        cases htop'
      · intro htop'
        rw [Stack.top_eq_blockedDummy, hl] at htop'
        cases htop'
  next hpc =>
    cases hs
    exact h.clear (.of_eq (by simp [Mailbox.stored, Mailbox.waiting])) id rfl
  next hpc =>
    cases hs
    rw [hpc] at ho
    have hh : s.mailbox.head = [] := ho
    refine h.clear ?_ id fun hc => ?_
    · simp only [Mailbox.stored, Mailbox.waiting, hh, List.nil_append, List.append_nil]
      exact List.perm_append_comm
    · have hc' : s.mailbox.stack = .closed := hc
      simp [Mailbox.stored, Mailbox.waiting, hh, hc']

variable [DecidableEq π]

omit [DecidableEq A] [Fintype π] in
/-- One producer's step: what is true of all places of producers. -/
theorem forall_producer {P : ProducerPc A → Prop} {p : π} {pc : ProducerPc A} (hpc : P pc)
    (h : ∀ u, P (s.producer u)) (u : π) : P (Function.update s.producer p pc u) :=
  (Function.forall_update_iff s.producer fun _ pc => P pc).mpr ⟨hpc, fun u _ => h u⟩ u

/-- A step of a producer that puts nothing into the queue. -/
theorem Ledger.carried (h : Ledger s) {p : π} {pc : ProducerPc A}
    (hpc : pc.object = (s.producer p).object) (hread : ∀ x, pc = .link x .null → s.mailbox.stack = .closed)
    (hlive : ∀ x, pc ≠ .exchange x .null) : Ledger (s.setProducer p pc) := by
  have htally : ∀ x, tally (carries x) (s.setProducer p pc).producer = tally (carries x) s.producer := by
    intro x
    have hupd := tally_update (carries x) s.producer p pc
    have hsame : carries x pc = carries x (s.producer p) := by rw [carries, hpc, carries]
    rw [hsame] at hupd
    exact Nat.add_right_cancel hupd
  refine ⟨fun x => ?_, h.fresh, fun x => ?_, h.disposed, h.refused, ?_, ?_, h.reader⟩
  · rw [htally]
    exact h.place x
  · rw [htally]
    exact h.answered x
  · exact forall_producer (P := fun pc => ∀ x, pc = .link x .null → s.mailbox.stack = .closed) hread h.read
  · exact forall_producer (P := fun pc => ∀ x, pc ≠ .exchange x .null) hlive h.live

/-- A producer's call of `enqueue` ends. -/
theorem Ledger.returns (h : Ledger s) {p : π} {x : A} {r : EnqueueResult}
    (hp : (s.producer p).object = some x) (q : Mailbox A) (del : List A)
    (hplace : ∀ y, q.stored.count y + del.count y = s.mailbox.stored.count y + if x = y then 1 else 0)
    (hdel : ∀ y, del.count y = if x = y ∧ r = .queueClosed then 1 else 0)
    (hclosed : r = .queueClosed → q.stack = .closed)
    (hshut : s.mailbox.stack = .closed → q.stack = .closed) (hread : ReaderOk q s.reader) :
    Ledger { s.setProducer p .idle with
             mailbox := q, deleted := s.deleted ++ del, results := s.results ++ [(x, r)] } := by
  have htally : ∀ y, tally (carries y) (Function.update s.producer p .idle) + (if x = y then 1 else 0) =
      tally (carries y) s.producer := by
    intro y
    have hupd := tally_update (carries y) s.producer p .idle
    have hidle : carries y (.idle : ProducerPc A) = 0 := rfl
    have hx : carries y (s.producer p) = if x = y then 1 else 0 := by simp [carries, hp]
    omega
  refine ⟨fun y => ?_, h.fresh, fun y => ?_, fun y => ?_, fun y hy => ?_, ?_, ?_, hread⟩
  · have h₁ := h.place y
    have h₂ := htally y
    have h₃ := hplace y
    change tally _ (Function.update s.producer p .idle) + q.stored.count y + s.popped.count y +
      (s.deleted ++ del).count y = _
    rw [List.count_append]
    change _ = s.given.count y
    omega
  · have h₁ := h.answered y
    have h₂ := htally y
    change tally _ (Function.update s.producer p .idle) + ((s.results ++ [(x, r)]).map Prod.fst).count y = _
    simp only [List.map_append, List.map_cons, List.map_nil, List.count_append, List.count_singleton,
      beq_iff_eq]
    change _ = s.given.count y
    split_ifs at h₂ ⊢ <;> omega
  · have h₁ := h.disposed y
    have h₂ := hdel y
    change (s.deleted ++ del).count y = s.visited.count y + (s.results ++ [(x, r)]).count (y, .queueClosed)
    rw [List.count_append, List.count_append, List.count_singleton, h₂]
    by_cases hxy : x = y <;> by_cases hr : r = .queueClosed <;> simp [hxy, hr] <;> omega
  · rcases List.mem_append.mp hy with hy | hy
    · exact hshut (h.refused y hy)
    · rw [List.mem_singleton] at hy
      exact hclosed (Prod.mk.inj hy).2.symm
  · exact forall_producer (P := fun pc => ∀ x, pc = .link x .null → q.stack = .closed) (by simp)
      fun u x hu => hshut (h.read u x hu)
  · exact forall_producer (P := fun pc => ∀ x, pc ≠ .exchange x .null) (by simp) h.live

omit [DecidableEq A] [Fintype π] [DecidableEq π] in
/-- A push does not disturb the reader. -/
theorem ReaderOk.enqueue {q : Mailbox A} {pc : ClosePc A} (h : ReaderOk q pc) (hne : q.stack ≠ .closed)
    (x : A) : ReaderOk (q.enqueue x).1 pc := by
  have ho := Mailbox.open_enqueue hne x
  cases pc with
  | outside => exact fun hc => absurd hc ho.ne_closed
  | test => exact ⟨(Mailbox.head_enqueue q x).trans h.1, ho.ne_closed⟩
  | load => exact ⟨(Mailbox.head_enqueue q x).trans h.1, ho⟩
  | exchange e => exact ⟨(Mailbox.head_enqueue q x).trans h.1, ho, h.2.2⟩
  | rest => exact absurd h hne
  | cache => exact (Mailbox.head_enqueue q x).trans h
  | failed f => exact h

theorem count_enqueue {q : Mailbox A} (hne : q.stack ≠ .closed) (x y : A) :
    (q.enqueue x).1.stored.count y = q.stored.count y + if x = y then 1 else 0 := by
  rw [Mailbox.stored, Mailbox.waiting_enqueue hne, Mailbox.cache_enqueue, Mailbox.stored]
  simp only [List.count_append, List.count_singleton, beq_iff_eq]
  omega

omit [DecidableEq A] in
theorem result_enqueue {q : Mailbox A} (hne : q.stack ≠ .closed) (x : A) :
    (q.enqueue x).2 ≠ .queueClosed := by
  unfold Mailbox.enqueue
  split
  next h => exact absurd h hne
  next => simp
  next => simp

/-- A step of `enqueue`. -/
theorem Ledger.produce (h : Ledger s) {p : π} (hs : s.produce p = some s') : Ledger s' := by
  unfold LifeState.produce at hs
  split at hs
  next => cases hs
  next x hp =>
    cases hs
    refine h.carried (by rw [hp]; rfl) ?_ (by simp)
    intro y heq
    exact Stack.top_eq_null.mp (ProducerPc.link.inj heq).2
  next x e hp =>
    split_ifs at hs with hn
    · cases hs
      obtain rfl : e = .null := by
        cases e with
        | null => rfl
        | _ => cases hn
      have hc := h.read p x hp
      refine h.returns (by rw [hp]; rfl) s.mailbox [x] (fun y => ?_) (fun y => ?_) (fun _ => hc) id
        h.reader
      · simp [List.count_singleton]
      · simp [List.count_singleton]
    · cases hs
      refine h.carried (by rw [hp]; rfl) (by simp) ?_
      rintro y heq
      rw [(ProducerPc.exchange.inj heq).2] at hn
      exact hn rfl
  next x e hp =>
    split_ifs at hs with htop
    · cases hs
      have hne : s.mailbox.stack ≠ .closed := by
        intro hc
        rw [hc] at htop
        exact h.live p x (by rw [hp, ← htop]; rfl)
      have hret := h.returns (p := p) (r := (s.mailbox.enqueue x).2) (by rw [hp]; rfl)
        (s.mailbox.enqueue x).1 [] (fun y => by simpa using count_enqueue hne x y)
        (fun y => by simp [result_enqueue hne x]) (fun hr => absurd hr (result_enqueue hne x))
        (fun hc => absurd hc hne) (h.reader.enqueue hne x)
      rw [List.append_nil] at hret
      exact hret
    · cases hs
      refine h.carried (by rw [hp]; rfl) ?_ (by simp)
      intro y heq
      exact Stack.top_eq_null.mp (ProducerPc.link.inj heq).2

/-- An element is handed to `enqueue`. -/
theorem Ledger.call (h : Ledger s) {p : π} {x : A} (hp : s.producer p = .idle) (hx : x ∉ s.given) :
    Ledger { s.setProducer p (.load x) with given := s.given ++ [x] } := by
  have htally : ∀ y, tally (carries y) (Function.update s.producer p (.load x)) =
      tally (carries y) s.producer + if x = y then 1 else 0 := by
    intro y
    have hupd := tally_update (carries y) s.producer p (.load x)
    have hidle : carries y (s.producer p) = 0 := by rw [hp]; rfl
    have hload : carries y (.load x) = if x = y then 1 else 0 := by simp [carries, ProducerPc.object]
    omega
  refine ⟨fun y => ?_, ?_, fun y => ?_, h.disposed, h.refused, ?_, ?_, h.reader⟩
  · have h₁ := h.place y
    have h₂ := htally y
    change tally _ (Function.update s.producer p (.load x)) + _ + _ + _ = (s.given ++ [x]).count y
    rw [List.count_append, List.count_singleton]
    simp only [beq_iff_eq]
    change _ + s.mailbox.stored.count y + s.popped.count y + s.deleted.count y = _
    omega
  · exact List.nodup_append.mpr ⟨h.fresh, by simp, fun a ha b hb hab => hx (by
      rw [List.mem_singleton] at hb
      exact hb ▸ hab ▸ ha)⟩
  · have h₁ := h.answered y
    have h₂ := htally y
    change tally _ (Function.update s.producer p (.load x)) + _ = (s.given ++ [x]).count y
    rw [List.count_append, List.count_singleton]
    simp only [beq_iff_eq]
    change _ + (s.results.map Prod.fst).count y = _
    omega
  · exact forall_producer (P := fun pc => ∀ x, pc = .link x .null → s.mailbox.stack = .closed) (by simp)
      h.read
  · exact forall_producer (P := fun pc => ∀ x, pc ≠ .exchange x .null) (by simp) h.live

omit [DecidableEq π] in
/-- The reader puts an element it has into the cache. -/
theorem Ledger.stash (h : Ledger s) {x : A} {c : Cache A} (hout : s.reader = .outside)
    (hx : x ∈ s.popped) (hne : s.mailbox.closed = false)
    (hperm : (c.first ++ c.second).Perm (x :: (s.mailbox.cache.first ++ s.mailbox.cache.second))) :
    Ledger { s with mailbox := { s.mailbox with cache := c }, popped := s.popped.erase x } := by
  refine h.ofReader rfl rfl rfl (fun y => ?_) (fun _ => rfl) id ?_
  · have hpos := List.count_pos_iff.mpr hx
    have hc := hperm.count_eq y
    rw [List.count_cons] at hc
    simp only [Mailbox.stored, Mailbox.waiting, List.count_append, List.count_erase] at hc ⊢
    by_cases hxy : x = y
    · subst hxy
      simp only [BEq.rfl, if_true] at hc ⊢
      omega
    · simp only [beq_iff_eq, hxy, if_false] at hc ⊢
      omega
  · rw [hout]
    intro hc
    have hc : s.mailbox.stack = .closed := hc
    rw [Mailbox.closed_iff.mpr hc] at hne
    cases hne

omit [DecidableEq π] in
/-- No element is stored twice. -/
theorem Ledger.stored_le (h : Ledger s) (x : A) : s.mailbox.stored.count x ≤ 1 := by
  have hp := h.place x
  have := List.nodup_iff_count_le_one.mp h.fresh x
  omega

omit [DecidableEq π] in
/-- The reader takes an element out of the cache. -/
theorem Ledger.take (h : Ledger s) {x : A} (hout : s.reader = .outside)
    (hx : x ∈ s.mailbox.cache.first ++ s.mailbox.cache.second) :
    Ledger { s with mailbox := { s.mailbox with cache := s.mailbox.cache.take x },
                    popped := s.popped ++ [x] } := by
  refine h.ofReader rfl rfl rfl (fun y => ?_) (fun _ => rfl) id ?_
  · have hpos := List.count_pos_iff.mpr hx
    have hle := h.stored_le x
    simp only [Mailbox.stored, Mailbox.waiting, Cache.take, List.count_append, List.count_erase,
      List.count_singleton] at hpos hle ⊢
    by_cases hxy : x = y
    · subst hxy
      simp only [BEq.rfl, if_true]
      omega
    · simp only [beq_iff_eq, hxy, if_false]
      omega
  · rw [hout]
    intro hc
    have ho := h.reader
    rw [hout] at ho
    have hnil := List.append_eq_nil_iff.mp (ho hc)
    rw [hnil.2] at hx
    cases hx

theorem Ledger.step (h : Ledger s) {a : LifeAct π A} (hs : s.step a = some s') : Ledger s' := by
  have ho := h.reader
  cases a with
  | call p x =>
    simp only [LifeState.step] at hs
    split at hs
    next hp =>
      split_ifs at hs with hx
      cases hs
      exact h.call hp hx
    next => cases hs
  | produce p => exact h.produce hs
  | tryPop =>
    simp only [LifeState.step] at hs
    split at hs
    next q r hout hq =>
      cases hs
      obtain ⟨hperm, hshut⟩ := Mailbox.perm_tryPop hq
      refine h.ofReader rfl rfl rfl (fun x => ?_) (fun _ => rfl) hshut.mpr ?_
      · have := hperm.count_eq x
        rw [List.count_append] at this
        simp only [List.count_append]
        omega
      · rw [hout] at ho ⊢
        intro hc
        have hnil := hperm
        rw [ho (hshut.mp hc)] at hnil
        exact (List.append_eq_nil_iff.mp hnil.eq_nil).2
    next => cases hs
  | tryBlock =>
    exact h.readCall (fun q hq => by cases hq; exact Mailbox.rearranges_tryBlock _) hs
  | tryUnblock =>
    exact h.readCall (fun q hq => by cases hq; exact Mailbox.rearranges_tryUnblock _) hs
  | peek =>
    refine h.readCall (fun q hq => ?_) hs
    obtain ⟨⟨q', r⟩, hr, rfl⟩ := Mailbox.map_ok hq
    exact Mailbox.rearranges_peek hr
  | count m =>
    refine h.readCall (fun q hq => ?_) hs
    obtain ⟨⟨q', r⟩, hr, rfl⟩ := Mailbox.map_ok hq
    exact Mailbox.rearranges_count hr
  | insertFirst i x =>
    simp only [LifeState.step] at hs
    split at hs
    next hout =>
      split_ifs at hs with hx
      cases hs
      obtain ⟨hx, hi, hc⟩ := hx
      exact h.stash hout hx hc ((List.perm_insertIdx x _ hi).append_right _)
    next => cases hs
  | insertSecond i x =>
    simp only [LifeState.step] at hs
    split at hs
    next hout =>
      split_ifs at hs with hx
      cases hs
      obtain ⟨hx, hi, hc⟩ := hx
      exact h.stash hout hx hc (((List.perm_insertIdx x _ hi).append_left _).trans List.perm_middle)
    next => cases hs
  | take x =>
    simp only [LifeState.step] at hs
    split at hs
    next hout =>
      split_ifs at hs with hx
      cases hs
      exact h.take hout hx
    next => cases hs
  | close =>
    simp only [LifeState.step] at hs
    split at hs
    next hout =>
      split_ifs at hs with hc
      cases hs
      refine h.clear (.of_eq (by simp [Mailbox.stored, Mailbox.waiting])) id ⟨rfl, ?_⟩
      intro hst
      exact hc (Mailbox.closed_iff.mpr hst)
    next => cases hs
  | next spurious => exact h.closeStep hs

theorem ledger_of_reachable (h : (lifeSystem π A).Reachable s) : Ledger s := by
  refine h.invariant ?_ ?_
  · rintro s rfl
    exact ledger_init
  · intro s a s' hI hs
    exact hI.step hs

end LifeState

open LifeState in
/-- **Each element once**, over every interleaving of producers with the reader and its
`close`. An element handed to `enqueue` is at one place: with its producer, in the queue, with
the reader, or deleted. Those that `enqueue` refuses, and it refuses none before the queue is
closed, it deletes and nobody visits; those it accepts are deleted by nobody but `close`, which
visits them first. No assertion of the fetch in `close` fails. And once `close` has closed the
queue and returned, nothing is stored: whatever is not with a producer or with the reader has
been deleted, and never twice. -/
theorem each_element_once {π A : Type*} [Fintype π] [DecidableEq π] [DecidableEq A] {s : LifeState π A}
    (h : (lifeSystem π A).Reachable s) :
    (∀ x ∈ s.given, (Finset.univ.filter fun p => (s.producer p).object = some x).card +
      s.mailbox.stored.count x + s.popped.count x + s.deleted.count x = 1) ∧
    (∀ x, (x, .queueClosed) ∈ s.results →
      s.mailbox.closed = true ∧ s.deleted.count x = 1 ∧ x ∉ s.visited) ∧
    (∀ x r, (x, r) ∈ s.results → r ≠ .queueClosed → s.deleted.count x = s.visited.count x) ∧
    (∀ f, s.reader ≠ .failed f) ∧
    (s.reader = .outside → s.mailbox.closed = true → s.mailbox.stored = [] ∧
      ∀ x ∈ s.given, (∀ p, (s.producer p).object ≠ some x) → x ∉ s.popped → s.deleted.count x = 1) := by
  have hl := ledger_of_reachable h
  have hone : ∀ x, s.given.count x ≤ 1 := List.nodup_iff_count_le_one.mp hl.fresh
  have hnodup : (s.results.map Prod.fst).Nodup := by
    refine List.nodup_iff_count_le_one.mpr fun x => ?_
    have h₁ := hl.answered x
    have h₂ := hone x
    omega
  refine ⟨fun x hx => ?_, fun x hx => ⟨?_, ?_, ?_⟩, fun x r hx hr => ?_, fun f hf => ?_, fun hout hc => ?_⟩
  · have h₁ := hl.place x
    rw [List.count_eq_one_of_mem hl.fresh hx] at h₁
    rw [Finset.card_eq_sum_ones, Finset.sum_filter]
    exact h₁
  · exact Mailbox.closed_iff.mpr (hl.refused x hx)
  · have h₁ := hl.place x
    have h₂ := hl.disposed x
    have h₃ := List.count_pos_iff.mpr hx
    have h₄ := hone x
    omega
  · have h₁ := hl.place x
    have h₂ := hl.disposed x
    have h₃ := List.count_pos_iff.mpr hx
    have h₄ := hone x
    rw [← List.count_eq_zero]
    omega
  · have h₁ := hl.disposed x
    have h₂ : s.results.count (x, .queueClosed) = 0 := by
      rw [List.count_eq_zero]
      intro hx'
      have := List.inj_on_of_nodup_map hnodup hx hx' rfl
      exact hr (Prod.mk.inj this).2
    omega
  · have hr := hl.reader
    rw [hf] at hr
    exact hr
  · have hr := hl.reader
    rw [hout] at hr
    have hnil := hr (Mailbox.closed_iff.mp hc)
    refine ⟨hnil, fun x hx hp hpop => ?_⟩
    have h₁ := hl.place x
    have h₂ : tally (carries x) s.producer = 0 := tally_const_zero fun p => if_neg (hp p)
    have h₃ := List.count_eq_zero.mpr hpop
    have h₄ := List.count_eq_one_of_mem hl.fresh hx
    rw [hnil, List.count_nil] at h₁
    omega

/-- While the reader closes the queue, one producer's exchange comes before the reader's and
another's after it: the element of the first is deleted by `close`, that of the second by its
producer. -/
theorem each_element_once_two : ∃ s : LifeState (Fin 2) ℕ, s.popped = [0] ∧ s.deleted = [1, 3, 2] ∧
    s.results = [(0, .success), (1, .success), (3, .success), (2, .queueClosed)] ∧
    s.mailbox.stored = [] ∧ 2 ∉ s.visited := by
  obtain ⟨s, hs, hp, hd, hr, hc, hout⟩ : ∃ s, (lifeSystem (Fin 2) ℕ).replay (fun _ _ => true) {}
      [.call 0 0, .produce 0, .produce 0, .produce 0, .tryPop, .call 0 1, .produce 0, .produce 0,
        .produce 0, .call 1 2, .produce 1, .produce 1, .call 0 3, .produce 0, .peek, .close, .next false,
        .next false, .produce 0, .produce 0, .produce 0, .produce 0, .next false, .produce 1, .next false,
        .produce 1, .next false, .produce 1, .next false, .produce 1] = some s ∧ s.popped = [0] ∧
      s.deleted = [1, 3, 2] ∧
      s.results = [(0, .success), (1, .success), (3, .success), (2, .queueClosed)] ∧
      s.mailbox.closed = true ∧ s.reader = .outside := ⟨_, rfl, rfl, rfl, rfl, rfl, rfl⟩
  obtain ⟨-, h, -, -, h'⟩ := each_element_once (.of_replay rfl hs)
  exact ⟨s, hp, hd, hr, (h' hout hc).1, (h 2 (by rw [hr]; simp)).2.2⟩

end ActorsFramework.Detail
