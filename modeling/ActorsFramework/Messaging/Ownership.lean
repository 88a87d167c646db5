import Mathlib.Data.List.Perm.Basic
import ActorsFramework.Lib.Transition
import ActorsFramework.Lib.Tally
import ActorsFramework.Supervisor.MutualLinks

/-!
# Who owns a message

A message is owned by one `unique_ptr`, or by the mailbox or the supervisor that
such a pointer was released to; a message inside a "delegate" message is owned by
whoever unwraps that. `broadcast` gives each contact a clone of the message and
deletes the message itself; `clone` copies the body, and where the body holds a
pointer to another message, it copies the pointer.

The loops of `broadcast` run over `contacts_` itself. A contact that is a supervisor
processes its clone in place, so that links may be added before the loops go on, and
a list that has grown is gone through to its new end.

`unique_owner`: in a run in which no message with an inner message is broadcast to
two or more contacts, those counted that are linked in the meantime, every message has
at most one owner at any time, is put in a mailbox at most once and deleted at most
once. `two_mailboxes` is a run in which the inner message ends up in the mailboxes of
two actors, and both delete it.

A message is its place in memory and what its body points to. The threads are the
tasks they are at; the steps of different tasks interleave freely, which allows more
than the nesting of calls does. A supervisor is entered by one thread at a time, and an
actor is run by one worker at a time: to take a message from a mailbox is one step.
-/

namespace ActorsFramework.Messaging.Ownership

open Lib Supervisor

variable {A κ : Type*}

/-! ### Messages -/

/-- A `message`. -/
inductive Message (κ : Type*) where
  /-- One whose body points to no message. -/
  | plain (id : ℕ)
  /-- A "delegate" message, for the contact of this type; without one, its target is given as an
  `address_t`. -/
  | delegate (id : ℕ) (type : Option κ) (msg : Message κ)
  deriving DecidableEq

namespace Message

/-- The place of the message itself. -/
def id : Message κ → ℕ
  | plain id | delegate id _ _ => id

/-- The message and those inside. -/
def ids : Message κ → List ℕ
  | plain id => [id]
  | delegate id _ msg => id :: msg.ids

/-- The messages inside. -/
def carried : Message κ → List ℕ
  | plain _ => []
  | delegate _ _ msg => msg.ids

/-- `message::clone`, which makes its copy at `n`. -/
def clone (n : ℕ) : Message κ → Message κ
  | plain _ => plain n
  | delegate _ type msg => delegate n type msg

theorem ids_eq (m : Message κ) : m.ids = m.id :: m.carried := by cases m <;> rfl

theorem id_clone (n : ℕ) (m : Message κ) : (m.clone n).id = n := by cases m <;> rfl

theorem carried_clone (n : ℕ) (m : Message κ) : (m.clone n).carried = m.carried := by cases m <;> rfl

end Message

/-- What a message is made of. -/
inductive Content (κ : Type*) where
  /-- No pointers to messages. -/
  | plain
  /-- A type string or an address, and a message made by `make_message_ptr`. -/
  | delegate (type : Option κ) (c : Content κ)
  deriving DecidableEq

/-- `make_message`, with memory free from `n` on: the inner message is made first. -/
def Content.make (n : ℕ) : Content κ → Message κ × ℕ
  | .plain => (.plain n, n + 1)
  | .delegate type c =>
    let (msg, n) := c.make n
    (.delegate n type msg, n + 1)

/-! ### The loops of `broadcast` -/

section Loops

variable [DecidableEq κ]

/-- The list of a type. -/
def addresses (contacts : SupervisorAbstract.Contacts A κ) (k : κ) : List (Address A) :=
  (contacts.lookup k).getD []

/-- The contacts of a type; without one, all. -/
def targets (contacts : SupervisorAbstract.Contacts A κ) : Option κ → List (Address A)
  | none => contacts.keys.flatMap (addresses contacts)
  | some k => addresses contacts k

/-- How far `broadcast` has come in `contacts_`. -/
inductive Walk (κ : Type*) where
  /-- The outer loop: the types that were there when it began, those whose lists it has come to,
  the last one first, and how many addresses of that one the inner loop has passed. -/
  | all (start begun : List κ) (pos : ℕ)
  /-- The loop over the list of a type. -/
  | ofType (type : κ) (pos : ℕ)

namespace Walk

/-- The type whose contacts are meant, if one is. -/
def type : Walk κ → Option κ
  | all .. => none
  | ofType type _ => some type

/-- Where the loops begin. -/
def first (contacts : SupervisorAbstract.Contacts A κ) : Option κ → Walk κ
  | none => all contacts.keys [] 0
  | some k => ofType k 0

/-- How many addresses of the list it is in the inner loop has passed. -/
def pos : Walk κ → ℕ
  | all _ _ pos | ofType _ pos => pos

/-- The list that the inner loop is in. -/
def list (contacts : SupervisorAbstract.Contacts A κ) : Walk κ → List (Address A)
  | all _ [] _ => []
  | all _ (k :: _) _ => addresses contacts k
  | ofType type _ => addresses contacts type

/-- `++j`. -/
def advance : Walk κ → Walk κ
  | all start begun pos => all start begun (pos + 1)
  | ofType type pos => ofType type (pos + 1)

/-- The next address of the list the inner loop is in, or the first one of the list of a type that
the outer loop goes on to. The order of the map's entries is any; a type that is new may come up
or not. (Where the map is rehashed the iterator of the outer loop is invalid; here it goes on.) -/
def next (contacts : SupervisorAbstract.Contacts A κ) (w : Walk κ) : Option κ → Option (Address A × Walk κ)
  | none => (w.list contacts)[w.pos]?.map (·, w.advance)
  | some k =>
    match w with
    | ofType _ _ => none
    | all start begun pos =>
      if (list contacts (all start begun pos)).length ≤ pos ∧ k ∉ begun then
        (addresses contacts k)[0]?.map (·, all start (k :: begun) 1)
      else none

/-- The loops have come to the end of the lists that were there when they began. -/
def AtEnd (contacts : SupervisorAbstract.Contacts A κ) (w : Walk κ) : Prop :=
  (w.list contacts).length ≤ w.pos ∧
    match w with
    | ofType _ _ => True
    | all start begun _ => ∀ k ∈ start, k ∈ begun ∨ addresses contacts k = []

instance (contacts : SupervisorAbstract.Contacts A κ) (w : Walk κ) :
    Decidable (w.AtEnd contacts) :=
  match w with
  | ofType type pos =>
    inferInstanceAs (Decidable ((list contacts (ofType type pos)).length ≤ pos ∧ True))
  | all start begun pos =>
    inferInstanceAs (Decidable ((list contacts (all start begun pos)).length ≤ pos ∧
      ∀ k ∈ start, k ∈ begun ∨ addresses contacts k = []))

end Walk

theorem addresses_eq_nil {contacts : SupervisorAbstract.Contacts A κ} {k : κ} (h : k ∉ contacts.keys) :
    addresses contacts k = [] := by
  rw [addresses, AList.lookup_eq_none.mpr (mt AList.mem_keys.mp h)]
  rfl

theorem mem_keys {contacts : SupervisorAbstract.Contacts A κ} {k : κ} (h : 0 < (addresses contacts k).length) :
    k ∈ contacts.keys := by
  by_contra hk
  rw [addresses_eq_nil hk] at h
  exact absurd h (lt_irrefl 0)

omit [DecidableEq κ] in
theorem length_le_flatMap {β : Type*} (f : κ → List β) {ks : List κ} {k : κ} (hk : k ∈ ks) :
    (f k).length ≤ (ks.flatMap f).length := by
  rw [List.length_flatMap]
  exact List.le_sum_of_mem (List.mem_map_of_mem hk)

/-- Two lists among those joined. -/
theorem length_add_le_flatMap {β : Type*} (f : κ → List β) {ks : List κ} {k k' : κ} (hk : k ∈ ks)
    (hk' : k' ∈ ks) (hne : k' ≠ k) : (f k).length + (f k').length ≤ (ks.flatMap f).length := by
  have hp := ((List.perm_cons_erase hk).flatMap_right f).length_eq
  have hle := length_le_flatMap f ((List.mem_erase_of_ne hne).mpr hk')
  rw [List.flatMap_cons, List.length_append] at hp
  omega

/-- Where two elements or more are joined, one of the lists has two, or two lists have one. -/
theorem exists_two {β : Type*} (f : κ → List β) {ks : List κ} (hnd : ks.Nodup)
    (h : 1 < (ks.flatMap f).length) :
    (∃ k ∈ ks, 1 < (f k).length) ∨
      ∃ k ∈ ks, ∃ k' ∈ ks, k' ≠ k ∧ (f k).length = 1 ∧ 0 < (f k').length := by
  by_contra hno
  obtain ⟨hone, htwo⟩ := not_or.mp hno
  obtain ⟨x, hx⟩ := List.exists_mem_of_length_pos (Nat.zero_lt_of_lt h)
  obtain ⟨k, hk, hxk⟩ := List.mem_flatMap.mp hx
  have hlen : (f k).length = 1 := by
    have h₀ := List.length_pos_of_mem hxk
    have h₁ : ¬ 1 < (f k).length := fun hlt => hone ⟨k, hk, hlt⟩
    omega
  -- the others are all empty
  have hrest : (ks.erase k).flatMap f = [] := by
    refine List.flatMap_eq_nil_iff.mpr fun k' hk' => ?_
    have hne : k' ≠ k := by
      rintro rfl
      exact (List.Nodup.not_mem_erase hnd) hk'
    by_contra hf
    exact htwo ⟨k, hk, k', List.mem_of_mem_erase hk', hne, hlen, List.length_pos_of_ne_nil hf⟩
  have hp := ((List.perm_cons_erase hk).flatMap_right f).length_eq
  rw [List.flatMap_cons, List.length_append, hrest, hlen] at hp
  rw [hp] at h
  exact absurd h (lt_irrefl 1)

namespace Walk

theorem list_length_le (contacts : SupervisorAbstract.Contacts A κ) (w : Walk κ) :
    (w.list contacts).length ≤ (targets contacts w.type).length := by
  cases w with
  | ofType type pos => exact le_rfl
  | all start begun pos =>
    cases begun with
    | nil => exact Nat.zero_le _
    | cons k begun =>
      rcases Nat.eq_zero_or_pos (addresses contacts k).length with h | h
      · exact h.le.trans (Nat.zero_le _)
      · exact length_le_flatMap (addresses contacts) (mem_keys h)

theorem list_mono {c c' : SupervisorAbstract.Contacts A κ} (w : Walk κ)
    (h : ∀ k, (addresses c k).length ≤ (addresses c' k).length) :
    (w.list c).length ≤ (w.list c').length := by
  cases w with
  | ofType type pos => exact h type
  | all start begun pos =>
    cases begun with
    | nil => exact le_rfl
    | cons k begun => exact h k

omit [DecidableEq κ] in
theorem type_first (contacts : SupervisorAbstract.Contacts A κ) (t : Option κ) : (first contacts t).type = t := by
  cases t <;> rfl

omit [DecidableEq κ] in
theorem pos_first (contacts : SupervisorAbstract.Contacts A κ) (t : Option κ) : (first contacts t).pos = 0 := by
  cases t <;> rfl

omit [DecidableEq κ] in
theorem type_advance (w : Walk κ) : w.advance.type = w.type := by cases w <;> rfl

omit [DecidableEq κ] in
theorem pos_advance (w : Walk κ) : w.advance.pos = w.pos + 1 := by cases w <;> rfl

theorem list_advance (contacts : SupervisorAbstract.Contacts A κ) (w : Walk κ) :
    w.advance.list contacts = w.list contacts := by
  cases w with
  | ofType type pos => rfl
  | all start begun pos => cases begun <;> rfl

/-- A round of the loops. Where it is not the first, there are two contacts or more. -/
theorem of_next {contacts : SupervisorAbstract.Contacts A κ} {w w' : Walk κ} {t : Option κ} {a : Address A}
    (h : w.next contacts t = some (a, w')) :
    w'.type = w.type ∧ w'.pos ≠ 0 ∧ w'.pos ≤ (w'.list contacts).length ∧
      (w.pos ≤ (w.list contacts).length → w.pos ≠ 0 → 2 ≤ (targets contacts w.type).length) := by
  cases t with
  | none =>
    simp only [next, Option.map_eq_some_iff] at h
    obtain ⟨x, hx, he⟩ := h
    cases he
    have hlt := (List.getElem?_eq_some_iff.mp hx).1
    have hle := list_length_le contacts w
    refine ⟨type_advance w, ?_, ?_, fun _ hpos => ?_⟩
    · rw [pos_advance]
      exact Nat.succ_ne_zero _
    · rw [pos_advance, list_advance]
      exact hlt
    · omega
  | some k =>
    cases w with
    | ofType type pos => cases h
    | all start begun pos =>
      simp only [next] at h
      split_ifs at h with hk
      obtain ⟨x, hx, he⟩ := Option.map_eq_some_iff.mp h
      cases he
      have hlt := (List.getElem?_eq_some_iff.mp hx).1
      refine ⟨rfl, one_ne_zero, hlt, fun hin hpos => ?_⟩
      cases begun with
      | nil => exact absurd (Nat.le_zero.mp hin) hpos
      | cons k' begun =>
        have hin : pos ≤ (addresses contacts k').length := hin
        have hpos : pos ≠ 0 := hpos
        have hne : k' ≠ k := fun he => hk.2 (he ▸ List.mem_cons_self)
        have htwo : (addresses contacts k).length + (addresses contacts k').length ≤
            (targets contacts none).length :=
          length_add_le_flatMap _ (mem_keys hlt) (mem_keys (by omega)) hne
        show 2 ≤ (targets contacts none).length
        omega

/-- Where there are two contacts or more, the loops have two rounds at least. -/
theorem exists_next_next {contacts : SupervisorAbstract.Contacts A κ} {type : Option κ}
    (h : 1 < (targets contacts type).length) :
    ∃ t a w₁ t' b w₂, (first contacts type).next contacts t = some (a, w₁) ∧
      w₁.next contacts t' = some (b, w₂) ∧ a ∈ targets contacts type ∧ b ∈ targets contacts type := by
  cases type with
  | some k =>
    have h : 1 < (addresses contacts k).length := h
    refine ⟨none, (addresses contacts k)[0], .ofType k 1, none, (addresses contacts k)[1],
      .ofType k 2, ?_, ?_, List.getElem_mem _, List.getElem_mem _⟩
    · simp only [first, next, list, pos, List.getElem?_eq_getElem (Nat.zero_lt_of_lt h), Option.map_some]
      rfl
    · simp only [next, list, pos, List.getElem?_eq_getElem h, Option.map_some]
      rfl
  | none =>
    rcases exists_two _ contacts.keys_nodup h with ⟨k, hk, hlen⟩ | ⟨k, hk, k', hk', hne, hlen, hlen'⟩
    · refine ⟨some k, (addresses contacts k)[0], .all contacts.keys [k] 1, none,
        (addresses contacts k)[1], .all contacts.keys [k] 2, ?_, ?_,
        List.mem_flatMap.mpr ⟨k, hk, List.getElem_mem _⟩,
        List.mem_flatMap.mpr ⟨k, hk, List.getElem_mem _⟩⟩
      · simp [first, next, list, List.getElem?_eq_getElem (Nat.zero_lt_of_lt hlen)]
      · simp [next, list, pos, List.getElem?_eq_getElem hlen, advance]
    · refine ⟨some k, (addresses contacts k)[0], .all contacts.keys [k] 1, some k',
        (addresses contacts k')[0], .all contacts.keys [k', k] 1, ?_, ?_,
        List.mem_flatMap.mpr ⟨k, hk, List.getElem_mem _⟩,
        List.mem_flatMap.mpr ⟨k', hk', List.getElem_mem _⟩⟩
      · have h₀ : 0 < (addresses contacts k).length := by omega
        simp [first, next, list, List.getElem?_eq_getElem h₀]
      · simp [next, list, hlen, hne, List.getElem?_eq_getElem hlen']

end Walk

end Loops

/-! ### The model -/

/-- What a thread is in the middle of, with a `unique_ptr` of its own. -/
inductive Task (A κ : Type*) where
  /-- `enqueue`, on the way to `enqueue_base` of the party. -/
  | enqueue (msg : Message κ) (target : A)
  /-- `broadcast` by the supervisor `this`. -/
  | broadcast (this : A) (tmp : Message κ) (walk : Walk κ)
  /-- `run` of an actor. -/
  | run (a : A) (ptr : Message κ)

variable [DecidableEq κ]

/-- The parties, and the threads. -/
structure State (A κ : Type*) [DecidableEq κ] where
  /-- The memory from here on is free. -/
  next : ℕ := 0
  /-- `contacts_` of the supervisors. -/
  contacts : A → SupervisorAbstract.Contacts A κ := fun _ => ∅
  /-- `mailbox_` of the actors. -/
  mailbox : A → List (Message κ) := fun _ => []
  /-- `current_message_` of the supervisors. -/
  current : A → Option (Message κ) := fun _ => none
  /-- The threads. -/
  tasks : List (Task A κ) := []
  /-- How often a message was deleted. -/
  deleted : ℕ → ℕ := fun _ => 0
  /-- How often a message was put in a mailbox. -/
  enqueued : ℕ → ℕ := fun _ => 0

/-- What happens. -/
inductive Action (A κ : Type*) where
  /-- `send`. -/
  | send (target : A) (c : Content κ)
  /-- `delegate_send`. -/
  | delegateSend (supervisor : A) (type : Option κ) (c : Content κ)
  /-- `broadcast`, by the supervisor `this`. -/
  | broadcast (this : A) (c : Content κ)
  /-- `broadcast` to the contacts of a type. -/
  | broadcastType (this : A) (type : κ) (c : Content κ)
  /-- A message reaches its target. -/
  | enqueue (i : ℕ)
  /-- A round of the inner loop of `broadcast`, the first one in the list of a type if that is
  given. -/
  | clone (i : ℕ) (type : Option κ)
  /-- The `unique_ptr` of a task goes out of scope. -/
  | finish (i : ℕ)
  /-- An actor takes a message from its mailbox and begins to process it. -/
  | take (a : A) (i : ℕ)
  /-- A supervisor processes an "add_link". -/
  | addLink (this : A) (address : Address A)
  /-- A supervisor processes a "remove_link". -/
  | removeLink (this : A) (address : Address A)

namespace State

/-- `make_message`, and `enqueue` of the result. -/
def send (s : State A κ) (target : A) (c : Content κ) : State A κ :=
  let (msg, n) := c.make s.next
  { s with next := n, tasks := s.tasks ++ [.enqueue msg target] }

/-- `make_message`, and the beginning of `broadcast` to the contacts of a type, or to all. -/
def startBroadcast (s : State A κ) (this : A) (type : Option κ) (c : Content κ) : State A κ :=
  let (msg, n) := c.make s.next
  { s with next := n, tasks := s.tasks ++ [.broadcast this msg (.first (s.contacts this) type)] }

/-- A task comes to its end, or goes on as others. -/
def replace (s : State A κ) (i : ℕ) (ts : List (Task A κ)) : State A κ :=
  { s with tasks := s.tasks.eraseIdx i ++ ts }

/-- A message is deleted, and what its body points to is not. -/
def delete (s : State A κ) (m : Message κ) : State A κ :=
  { s with deleted := Function.update s.deleted m.id (s.deleted m.id + 1) }

variable [DecidableEq A]

/-- `enqueue` of an actor's mailbox. -/
def toMailbox (s : State A κ) (a : A) (msg : Message κ) : State A κ :=
  { s with
    mailbox := Function.update s.mailbox a (s.mailbox a ++ [msg])
    enqueued := Function.update s.enqueued msg.id (s.enqueued msg.id + 1) }

/-- `set_current_message`: the current message before is no longer pointed to. -/
def setCurrentMessage (s : State A κ) (supervisor : A) (msg : Message κ) : State A κ :=
  { s with current := Function.update s.current supervisor (some msg) }

/-- `enqueue_base`: of an actor, or that of a supervisor, `set_current_message` and `execute`.
The handler "delegate" is `redirect`; what other handlers do are actions of their own. -/
def enqueueBase (kind : A → Kind) (s : State A κ) (i : ℕ) (msg : Message κ) (target : A) : Option (State A κ) :=
  match kind target with
  | .actor => some ((s.replace i []).toMailbox target msg)
  | .supervisor =>
    match msg with
    -- where the target is an `address_t` the cast of the body throws
    | .plain _ | .delegate _ none _ => some ((s.replace i []).setCurrentMessage target msg)
    | .delegate _ (some type) tmp =>
      match SupervisorAbstract.addressBook (s.contacts target) type with
      | .ok (some a) => some ((s.replace i [.enqueue tmp a]).setCurrentMessage target msg)
      -- `enqueue` through the empty address
      | _ => none

/-- The step function. -/
def step (type : A → κ) (kind : A → Kind) (s : State A κ) : Action A κ → Option (State A κ)
  | .send target c => some (s.send target c)
  | .delegateSend supervisor type c => some (s.send supervisor (.delegate type c))
  | .broadcast this c => some (s.startBroadcast this none c)
  | .broadcastType this type c =>
    match (s.contacts this).lookup type with
    -- `find` returned `end()`
    | none => none
    | some _ => some (s.startBroadcast this (some type) c)
  | .enqueue i =>
    match s.tasks[i]? with
    | some (.enqueue msg target) => s.enqueueBase kind i msg target
    | _ => none
  | .clone i k =>
    match s.tasks[i]? with
    | some (.broadcast this tmp walk) =>
      match walk.next (s.contacts this) k with
      | some (some a, walk) => some (replace { s with next := s.next + 1 } i
          [.broadcast this tmp walk, .enqueue (tmp.clone s.next) a])
      | _ => none
    | _ => none
  | .finish i =>
    match s.tasks[i]? with
    | some (.broadcast this tmp walk) =>
      if walk.AtEnd (s.contacts this) then some ((s.replace i []).delete tmp) else none
    | some (.run _ ptr) => some ((s.replace i []).delete ptr)
    | _ => none
  | .take a i =>
    match (s.mailbox a)[i]? with
    | some ptr => some { s with
        mailbox := Function.update s.mailbox a ((s.mailbox a).eraseIdx i)
        tasks := s.tasks ++ [.run a ptr] }
    | none => none
  | .addLink this address =>
    match SupervisorAbstract.addLinkImpl type this (s.contacts this) address with
    | .ok c => some { s with contacts := Function.update s.contacts this c }
    | .error _ => none
  | .removeLink this address =>
    match SupervisorAbstract.removeLinkImpl type (s.contacts this) address with
    | .ok c => some { s with contacts := Function.update s.contacts this c }
    | .error _ => none

end State

/-- Any threads, any parties: there are no messages at first. -/
def messaging [DecidableEq A] (type : A → κ) (kind : A → Kind) : System (State A κ) (Action A κ) where
  Init s := s = {}
  step := State.step type kind

/-- With these contacts, no message with another inside is being broadcast to two or more of
them. -/
def Task.Narrow (contacts : A → SupervisorAbstract.Contacts A κ) : Task A κ → Prop
  | .broadcast this tmp walk => tmp.carried = [] ∨ (targets (contacts this) walk.type).length ≤ 1
  | _ => True

instance (contacts : A → SupervisorAbstract.Contacts A κ) (t : Task A κ) : Decidable (t.Narrow contacts) :=
  match t with
  | .broadcast this tmp walk =>
    inferInstanceAs (Decidable (tmp.carried = [] ∨ (targets (contacts this) walk.type).length ≤ 1))
  | .enqueue _ _ | .run _ _ => isTrue trivial

section Condition

variable [DecidableEq A]

/-- A message with another inside is not broadcast to more than one contact: neither are there
more when the broadcast begins, nor is a second one linked before it ends. -/
def OneByOne (type : A → κ) (s : State A κ) : Action A κ → Prop
  | .broadcast this c => c = .plain ∨ (targets (s.contacts this) none).length ≤ 1
  | .broadcastType this type c => c = .plain ∨ (targets (s.contacts this) (some type)).length ≤ 1
  | .addLink this address =>
    ∀ c ∈ (SupervisorAbstract.addLinkImpl type this (s.contacts this) address).toOption,
      ∀ t ∈ s.tasks, t.Narrow (Function.update s.contacts this c)
  | _ => True

instance (type : A → κ) (s : State A κ) (x : Action A κ) : Decidable (OneByOne type s x) :=
  match x with
  | .broadcast this c =>
    inferInstanceAs (Decidable (c = .plain ∨ (targets (s.contacts this) none).length ≤ 1))
  | .broadcastType this type c =>
    inferInstanceAs (Decidable (c = .plain ∨ (targets (s.contacts this) (some type)).length ≤ 1))
  | .addLink this address =>
    inferInstanceAs (Decidable (∀ c ∈ (SupervisorAbstract.addLinkImpl type this (s.contacts this)
      address).toOption, ∀ t ∈ s.tasks, t.Narrow (Function.update s.contacts this c)))
  | .send _ _ | .delegateSend _ _ _ | .enqueue _ | .clone _ _ | .finish _ | .take _ _
  | .removeLink _ _ => isTrue trivial

end Condition

/-! ### Owners -/

/-- What a message counts for, by the place it is at. -/
structure Weight (κ : Type*) where
  /-- In a mailbox. -/
  mailbox : Message κ → ℕ
  /-- The current message of a supervisor. -/
  current : Message κ → ℕ
  /-- A `unique_ptr` on the way to a party. -/
  pointer : Message κ → ℕ
  /-- The message that is being broadcast, before it is cloned for the first time or after. -/
  template : Message κ → Bool → ℕ

/-- What a task counts for. -/
def Task.weigh (w : Weight κ) : Task A κ → ℕ
  | .enqueue msg _ => w.pointer msg
  | .broadcast _ tmp walk => w.template tmp (walk.pos = 0)
  -- in `run` a message is still the mailbox's
  | .run _ ptr => w.mailbox ptr

/-- What a current message counts for. -/
def weighCurrent (w : Weight κ) : Option (Message κ) → ℕ
  | none => 0
  | some m => w.current m

variable [Fintype A]

/-- What all messages count for. -/
def State.total (w : Weight κ) (s : State A κ) : ℕ :=
  tally (fun l : List (Message κ) => (l.map w.mailbox).sum) s.mailbox + tally (weighCurrent w) s.current +
    (s.tasks.map (Task.weigh w)).sum

/-- The owners of the message at `m`. A message that has yet to be processed owns the messages
inside, also where it was cloned; a current message has been processed, and a message that is
broadcast hands on those inside with the first clone of it. -/
def owning (m : ℕ) : Weight κ where
  mailbox msg := msg.ids.count m
  current msg := [msg.id].count m
  pointer msg := msg.ids.count m
  template msg fresh := [msg.id].count m + if fresh then msg.carried.count m else 0

/-- The owners that may yet put the message at `m` in a mailbox. -/
def placing (m : ℕ) : Weight κ where
  mailbox msg := msg.carried.count m
  current _ := 0
  pointer msg := msg.ids.count m
  template msg fresh := if fresh then msg.carried.count m else 0

/-- How many owners the message at `m` has, among the mailboxes, the current messages, the
"delegate" messages that have yet to be processed, and the tasks. -/
def State.owners (s : State A κ) (m : ℕ) : ℕ := s.total (owning m)

variable {s s' : State A κ}

omit [DecidableEq κ] in
/-- The messages made for a content are at the places taken for it. -/
theorem count_make (n : ℕ) (c : Content κ) (m : ℕ) :
    n < (c.make n).2 ∧
      (c.make n).1.ids.count m = if n ≤ m ∧ m < (c.make n).2 then 1 else 0 := by
  induction c with
  | plain =>
    refine ⟨Nat.lt_succ_self n, ?_⟩
    show [n].count m = if n ≤ m ∧ m < n + 1 then 1 else 0
    simp only [List.count_singleton, beq_iff_eq]
    by_cases hn : n = m
    · rw [if_pos hn, if_pos (by omega)]
    · rw [if_neg hn, if_neg (by omega)]
  | delegate type c ih =>
    obtain ⟨hlt, hc⟩ := ih
    refine ⟨Nat.lt_succ_of_lt hlt, ?_⟩
    show ((c.make n).2 :: (c.make n).1.ids).count m = if n ≤ m ∧ m < (c.make n).2 + 1 then 1 else 0
    simp only [List.count_cons, hc, beq_iff_eq]
    by_cases hn : (c.make n).2 = m
    · rw [if_pos hn, if_neg (by omega), if_pos (by omega)]
    · rw [if_neg hn]
      by_cases hm : n ≤ m ∧ m < (c.make n).2
      · rw [if_pos hm, if_pos (by omega)]
      · rw [if_neg hm, if_neg (by omega)]

omit [DecidableEq κ] in
/-- What counts only the messages made so far, and each at most once, may count those made for
a content as well. -/
theorem add_count_make {n m x : ℕ} (c : Content κ) (hx : x ≤ if m < n then 1 else 0) :
    x + (c.make n).1.ids.count m ≤ if m < (c.make n).2 then 1 else 0 := by
  obtain ⟨hlt, hc⟩ := count_make n c m
  rw [hc]
  by_cases hm : m < n
  · rw [if_pos hm] at hx
    rw [if_neg (by omega), if_pos (by omega)]
    exact hx
  · rw [if_neg hm] at hx
    by_cases hm' : m < (c.make n).2
    · rw [if_pos (by omega), if_pos hm']
      omega
    · rw [if_neg (by omega), if_neg hm']
      omega

/-- A task is replaced by others. -/
theorem total_replace (w : Weight κ) {i : ℕ} {t : Task A κ} (ht : s.tasks[i]? = some t)
    (ts : List (Task A κ)) :
    (s.replace i ts).total w + t.weigh w = s.total w + (ts.map (Task.weigh w)).sum := by
  obtain ⟨hi, rfl⟩ := List.getElem?_eq_some_iff.mp ht
  have hp := ((List.getElem_cons_eraseIdx_perm hi).map (Task.weigh w)).sum_eq
  rw [List.map_cons, List.sum_cons] at hp
  show tally _ s.mailbox + tally _ s.current + ((s.tasks.eraseIdx i ++ ts).map _).sum + _ = _
  rw [List.map_append, List.sum_append, State.total]
  omega

/-- A round of the loops of `broadcast`: the clone is new, and the message is no longer as it was
before it was cloned. -/
theorem total_clone (w : Weight κ) {i : ℕ} {this : A} {tmp : Message κ} {walk walk' : Walk κ}
    (ht : s.tasks[i]? = some (.broadcast this tmp walk)) (hpos : walk'.pos ≠ 0) (a : A) :
    (State.replace { s with next := s.next + 1 } i
      [.broadcast this tmp walk', .enqueue (tmp.clone s.next) a]).total w +
        w.template tmp (walk.pos = 0) =
      s.total w + (w.template tmp false + w.pointer (tmp.clone s.next)) := by
  have hr := total_replace w ht [.broadcast this tmp walk', .enqueue (tmp.clone s.next) a]
  simp only [List.map_cons, List.map_nil, List.sum_cons, List.sum_nil, Task.weigh,
    decide_eq_false hpos, Nat.add_zero] at hr
  exact hr

/-- A task is added. -/
theorem total_add (w : Weight κ) (t : Task A κ) (n : ℕ) :
    State.total w { s with next := n, tasks := s.tasks ++ [t] } = s.total w + t.weigh w := by
  show tally _ s.mailbox + tally _ s.current + ((s.tasks ++ [t]).map _).sum = _
  rw [List.map_append, List.sum_append, List.map_singleton, List.sum_singleton, State.total]
  omega

variable [DecidableEq A]

/-- A message comes into a mailbox. -/
theorem total_toMailbox (w : Weight κ) (a : A) (msg : Message κ) :
    (s.toMailbox a msg).total w = s.total w + w.mailbox msg := by
  have hu := tally_update (fun l : List (Message κ) => (l.map w.mailbox).sum) s.mailbox a
    (s.mailbox a ++ [msg])
  rw [List.map_append, List.sum_append, List.map_singleton, List.sum_singleton] at hu
  show tally _ (Function.update s.mailbox a (s.mailbox a ++ [msg])) + tally _ s.current +
    (s.tasks.map _).sum = _
  rw [State.total]
  omega

/-- A message is taken from a mailbox. -/
theorem total_take (w : Weight κ) {a : A} {i : ℕ} {ptr : Message κ} (hi : (s.mailbox a)[i]? = some ptr) :
    State.total w { s with
      mailbox := Function.update s.mailbox a ((s.mailbox a).eraseIdx i)
      tasks := s.tasks ++ [.run a ptr] } = s.total w := by
  obtain ⟨hlt, rfl⟩ := List.getElem?_eq_some_iff.mp hi
  have hp := ((List.getElem_cons_eraseIdx_perm hlt).map w.mailbox).sum_eq
  have hu := tally_update (fun l : List (Message κ) => (l.map w.mailbox).sum) s.mailbox a
    ((s.mailbox a).eraseIdx i)
  rw [List.map_cons, List.sum_cons] at hp
  show tally _ (Function.update s.mailbox a ((s.mailbox a).eraseIdx i)) + tally _ s.current +
    ((s.tasks ++ [_]).map _).sum = _
  rw [List.map_append, List.sum_append, List.map_singleton, List.sum_singleton, State.total]
  simp only [Task.weigh]
  omega

/-- A current message is set. -/
theorem total_setCurrentMessage (w : Weight κ) (a : A) (msg : Message κ) :
    (s.setCurrentMessage a msg).total w ≤ s.total w + w.current msg := by
  have hu := tally_update (weighCurrent w) s.current a (some msg)
  show tally _ s.mailbox + tally _ (Function.update s.current a (some msg)) + (s.tasks.map _).sum ≤ _
  rw [State.total]
  simp only [weighCurrent] at hu ⊢
  omega

omit [DecidableEq κ] [Fintype A] in
theorem count_ids (msg : Message κ) (m : ℕ) : msg.ids.count m = [msg.id].count m + msg.carried.count m := by
  rw [Message.ids_eq, List.count_cons, List.count_singleton, Nat.add_comm]

omit [DecidableEq κ] [Fintype A] in
theorem count_ids_clone (msg : Message κ) (n m : ℕ) :
    (msg.clone n).ids.count m = [n].count m + msg.carried.count m := by
  rw [count_ids, Message.id_clone, Message.carried_clone]

/-! ### The invariant -/

/-- The inner loop of a broadcast is in its list. -/
def Task.Within (contacts : A → SupervisorAbstract.Contacts A κ) : Task A κ → Prop
  | .broadcast this _ walk => walk.pos ≤ (walk.list (contacts this)).length
  | _ => True

omit [Fintype A] in
/-- No list becomes shorter by "add_link". -/
theorem length_addresses_addLinkImpl {type : A → κ} {this : A} {c c' : SupervisorAbstract.Contacts A κ}
    {address : Address A} (hc : SupervisorAbstract.addLinkImpl type this c address = .ok c') (k : κ) :
    (addresses c k).length ≤ (addresses c' k).length := by
  have hinsert : ∀ {k'} {l : List (Address A)}, (addresses c k').length ≤ l.length →
      (addresses c k).length ≤ (addresses (c.insert k' l) k).length := by
    intro k' l hl
    by_cases hk : k = k'
    · subst hk
      rw [addresses.eq_1 (c.insert k l), AList.lookup_insert]
      exact hl
    · rw [addresses.eq_1 (c.insert k' l), AList.lookup_insert_ne hk]
      exact le_rfl
  unfold SupervisorAbstract.addLinkImpl at hc
  split at hc
  next => cases hc
  next a =>
    split_ifs at hc
    · cases hc
      exact le_rfl
    · split at hc <;> cases hc
      next hn =>
        refine hinsert ?_
        rw [addresses, hn]
        exact Nat.zero_le _
      next l hl =>
        refine hinsert ?_
        rw [addresses, hl, List.length_append]
        exact Nat.le_add_right _ _

omit [Fintype A] in
/-- A "remove_link" that comes to its end removes nothing. -/
theorem lookup_removeLinkImpl {type : A → κ} {c c' : SupervisorAbstract.Contacts A κ} {address : Address A}
    (hc : SupervisorAbstract.removeLinkImpl type c address = .ok c') (k : κ) : c'.lookup k = c.lookup k := by
  unfold SupervisorAbstract.removeLinkImpl at hc
  split at hc
  next => cases hc
  next name _ =>
    split at hc
    next =>
      cases hc
      rfl
    next l hl =>
      by_cases ha : address ∈ l
      · rw [SupervisorAbstract.eraseLoop_of_mem ha] at hc
        cases hc
      · rw [SupervisorAbstract.eraseLoop_of_notMem ha] at hc
        cases hc
        by_cases hk : k = name
        · subst hk
          rw [AList.lookup_insert, hl]
        · rw [AList.lookup_insert_ne hk]

omit [Fintype A] [DecidableEq A] in
/-- How many contacts there are depends on what is found under each type only. -/
theorem length_targets {c c' : SupervisorAbstract.Contacts A κ} (h : ∀ k, c'.lookup k = c.lookup k)
    (type : Option κ) : (targets c' type).length = (targets c type).length := by
  have haddr : addresses c' = addresses c := by
    funext k
    rw [addresses, addresses, h]
  cases type with
  | some k => rw [targets, targets, haddr]
  | none =>
    have hperm : c'.entries.Perm c.entries :=
      List.lookup_ext c'.nodupKeys c.nodupKeys fun k l => by
        rw [show c'.entries.dlookup k = c.entries.dlookup k from h k]
    rw [targets, targets, haddr]
    exact ((hperm.map Sigma.fst).flatMap_right _).length_eq

omit [Fintype A] in
theorem Task.Narrow.update {contacts : A → SupervisorAbstract.Contacts A κ} {t : Task A κ}
    (h : t.Narrow contacts) {this : A} {c : SupervisorAbstract.Contacts A κ}
    (hc : ∀ type, (targets c type).length = (targets (contacts this) type).length) :
    t.Narrow (Function.update contacts this c) := by
  cases t with
  | enqueue msg target => trivial
  | run a ptr => trivial
  | broadcast b tmp walk =>
    refine h.imp_right fun hle => ?_
    by_cases hb : b = this
    · subst hb
      rw [Function.update_self, hc]
      exact hle
    · rw [Function.update_of_ne hb]
      exact hle

/-- What holds between any two steps. -/
structure Inv (s : State A κ) : Prop where
  /-- A message has one owner, or has been deleted, or is not owned by anybody. -/
  owned : ∀ m, s.total (owning m) + s.deleted m ≤ if m < s.next then 1 else 0
  /-- A message has been put in a mailbox, or may yet be, or neither. -/
  placed : ∀ m, s.total (placing m) + s.enqueued m ≤ if m < s.next then 1 else 0
  /-- What has another message inside is broadcast to one contact at most, and the loops of
  `broadcast` are in their lists. -/
  tasks : ∀ t ∈ s.tasks, t.Narrow s.contacts ∧ t.Within s.contacts

omit [DecidableEq κ] [Fintype A] [DecidableEq A] in
/-- What is left of a list of tasks, and what is added to it. -/
theorem forall_tasks {P : Task A κ → Prop} {l ts : List (Task A κ)} {i : ℕ} (h : ∀ t ∈ l, P t)
    (hts : ∀ t ∈ ts, P t) : ∀ t ∈ l.eraseIdx i ++ ts, P t := by
  intro t hm
  rcases List.mem_append.mp hm with hm | hm
  · exact h t ((List.eraseIdx_sublist l i).mem hm)
  · exact hts t hm

namespace Inv

omit [DecidableEq A] in
/-- A message is made, and a task begins with it. -/
theorem add (h : Inv s) {c : Content κ} {t : Task A κ}
    (hw : ∀ m, t.weigh (owning m) ≤ (c.make s.next).1.ids.count m ∧
      t.weigh (placing m) ≤ (c.make s.next).1.ids.count m)
    (ht : t.Narrow s.contacts ∧ t.Within s.contacts) :
    Inv { s with next := (c.make s.next).2, tasks := s.tasks ++ [t] } := by
  refine ⟨fun m => ?_, fun m => ?_, fun t' hm => ?_⟩
  · have h₁ := add_count_make c (h.owned m)
    have h₂ := (hw m).1
    rw [total_add]
    show s.total (owning m) + _ + s.deleted m ≤ if m < (c.make s.next).2 then 1 else 0
    omega
  · have h₁ := add_count_make c (h.placed m)
    have h₂ := (hw m).2
    rw [total_add]
    show s.total (placing m) + _ + s.enqueued m ≤ if m < (c.make s.next).2 then 1 else 0
    omega
  · rcases List.mem_append.mp hm with hm | hm
    · exact h.tasks t' hm
    · cases List.mem_singleton.mp hm
      exact ht

omit [DecidableEq A] in
/-- `send`. -/
theorem send (h : Inv s) (target : A) (c : Content κ) : Inv (s.send target c) :=
  h.add (fun _ => ⟨le_rfl, le_rfl⟩) ⟨trivial, trivial⟩

omit [DecidableEq A] in
/-- `broadcast` begins. -/
theorem startBroadcast (h : Inv s) {this : A} {type : Option κ} {c : Content κ}
    (hc : c = .plain ∨ (targets (s.contacts this) type).length ≤ 1) :
    Inv (s.startBroadcast this type c) := by
  refine h.add (fun m => ⟨?_, ?_⟩) ⟨?_, ?_⟩
  · show [(c.make s.next).1.id].count m + (if _ then (c.make s.next).1.carried.count m else 0) ≤ _
    rw [count_ids]
    split_ifs <;> omega
  · show (if _ then (c.make s.next).1.carried.count m else 0) ≤ _
    rw [count_ids]
    split_ifs <;> omega
  · rcases hc with rfl | hc
    · exact .inl rfl
    · refine .inr ?_
      rw [Walk.type_first]
      exact hc
  · show (Walk.first (s.contacts this) type).pos ≤ _
    rw [Walk.pos_first]
    exact Nat.zero_le _

omit [DecidableEq A] in
/-- Nothing is made; a message that is deleted loses its owner, and one that is put in a mailbox
will not be put in another. -/
theorem of_le (h : Inv s) (hn : s'.next = s.next)
    (ho : ∀ m, s'.total (owning m) + s'.deleted m ≤ s.total (owning m) + s.deleted m)
    (hp : ∀ m, s'.total (placing m) + s'.enqueued m ≤ s.total (placing m) + s.enqueued m)
    (hs : ∀ t ∈ s'.tasks, t.Narrow s'.contacts ∧ t.Within s'.contacts) : Inv s' where
  owned m := by
    rw [hn]
    exact (ho m).trans (h.owned m)
  placed m := by
    rw [hn]
    exact (hp m).trans (h.placed m)
  tasks := hs

omit [DecidableEq κ] [Fintype A] [DecidableEq A] in
/-- How often each message was deleted or put in a mailbox, once one more is. -/
theorem update_eq (f : ℕ → ℕ) (n m : ℕ) :
    Function.update f n (f n + 1) m = f m + [n].count m := by
  by_cases hm : m = n
  · subst hm
    rw [Function.update_self, List.count_singleton_self]
  · rw [Function.update_of_ne hm, List.count_eq_zero.mpr fun h => hm (List.mem_singleton.mp h),
      Nat.add_zero]

/-- A message is put in the mailbox of an actor. -/
theorem toMailbox (h : Inv s) {i : ℕ} {msg : Message κ} {target : A}
    (ht : s.tasks[i]? = some (.enqueue msg target)) : Inv ((s.replace i []).toMailbox target msg) := by
  refine h.of_le rfl (fun m => ?_) (fun m => ?_) (forall_tasks h.tasks (List.forall_mem_nil _))
  · have hr := total_replace (owning m) ht []
    rw [total_toMailbox]
    show _ + s.deleted m ≤ _
    simp only [Task.weigh, List.map_nil, List.sum_nil] at hr
    simp only [owning] at hr ⊢
    omega
  · have hr := total_replace (placing m) ht []
    have hc := count_ids msg m
    rw [total_toMailbox]
    show _ + Function.update s.enqueued msg.id (s.enqueued msg.id + 1) m ≤ _
    rw [update_eq]
    simp only [Task.weigh, List.map_nil, List.sum_nil] at hr
    simp only [placing] at hr ⊢
    omega

/-- A supervisor processes a message; of a "delegate" message it passes the inner one on. -/
theorem process (h : Inv s) {i : ℕ} {msg : Message κ} {target : A} {ts : List (Task A κ)}
    (ht : s.tasks[i]? = some (.enqueue msg target))
    (hts : ∀ m, (ts.map (Task.weigh (owning m))).sum ≤ msg.carried.count m ∧
      (ts.map (Task.weigh (placing m))).sum ≤ msg.carried.count m)
    (hb : ∀ t ∈ ts, t.Narrow s.contacts ∧ t.Within s.contacts) :
    Inv ((s.replace i ts).setCurrentMessage target msg) := by
  refine h.of_le rfl (fun m => ?_) (fun m => ?_) (forall_tasks h.tasks hb)
  · have hr := total_replace (owning m) ht ts
    have hs := total_setCurrentMessage (s := s.replace i ts) (owning m) target msg
    have hc := count_ids msg m
    have hw := (hts m).1
    show _ + s.deleted m ≤ _
    simp only [Task.weigh] at hr
    simp only [owning] at hr hs hw ⊢
    omega
  · have hr := total_replace (placing m) ht ts
    have hs := total_setCurrentMessage (s := s.replace i ts) (placing m) target msg
    have hc := count_ids msg m
    have hw := (hts m).2
    show _ + s.enqueued m ≤ _
    simp only [Task.weigh] at hr
    simp only [placing] at hr hs hw ⊢
    omega

/-- `enqueue_base`. -/
theorem enqueueBase (h : Inv s) {kind : A → Kind} {i : ℕ} {msg : Message κ} {target : A}
    (ht : s.tasks[i]? = some (.enqueue msg target)) (hs : s.enqueueBase kind i msg target = some s') :
    Inv s' := by
  unfold State.enqueueBase at hs
  split at hs
  next =>
    cases hs
    exact h.toMailbox ht
  next =>
    split at hs
    next id =>
      cases hs
      exact h.process ht (fun m => ⟨Nat.zero_le _, Nat.zero_le _⟩) (List.forall_mem_nil _)
    next id tmp =>
      cases hs
      exact h.process ht (fun m => ⟨Nat.zero_le _, Nat.zero_le _⟩) (List.forall_mem_nil _)
    next id type tmp =>
      split at hs <;> cases hs
      next a ha =>
      refine h.process ht (fun m => ⟨?_, ?_⟩) fun t hm => ?_
      · exact (Nat.add_zero _).le
      · exact (Nat.add_zero _).le
      · cases List.mem_singleton.mp hm
        exact ⟨trivial, trivial⟩

omit [DecidableEq A] in
/-- A round of the loops of `broadcast`. -/
theorem clone (h : Inv s) {i : ℕ} {this a : A} {tmp : Message κ} {walk walk' : Walk κ} {k : Option κ}
    (ht : s.tasks[i]? = some (.broadcast this tmp walk))
    (hn : walk.next (s.contacts this) k = some (some a, walk')) :
    Inv (State.replace { s with next := s.next + 1 } i
      [.broadcast this tmp walk', .enqueue (tmp.clone s.next) a]) := by
  obtain ⟨htype, hpos', hin', htwo⟩ := Walk.of_next hn
  obtain ⟨hnarrow, hwithin⟩ := h.tasks _ (List.mem_of_getElem? ht)
  -- where there is an inner message, this is the first round
  have hfirst : ∀ m, (if decide (walk.pos = 0) then tmp.carried.count m else 0) = tmp.carried.count m := by
    intro m
    rcases hnarrow with hnil | hle
    · rw [hnil]
      exact ite_self 0
    · have hpos : walk.pos = 0 := by
        by_contra hpos
        have := htwo hwithin hpos
        omega
      rw [if_pos (decide_eq_true hpos)]
  have hfresh : ∀ m x, x ≤ (if m < s.next then 1 else 0) →
      x + [s.next].count m ≤ if m < s.next + 1 then 1 else 0 := by
    intro m x hx
    exact add_count_make (.plain : Content κ) hx
  refine ⟨fun m => ?_, fun m => ?_, forall_tasks h.tasks fun t hm => ?_⟩
  · have hr := total_clone (owning m) ht hpos' a
    have hf := hfresh m _ (h.owned m)
    show State.total _ _ + s.deleted m ≤ if m < s.next + 1 then 1 else 0
    simp only [owning, hfirst, count_ids_clone, Bool.false_eq_true, if_false] at hr hf ⊢
    omega
  · have hr := total_clone (placing m) ht hpos' a
    have hf := hfresh m _ (h.placed m)
    show State.total _ _ + s.enqueued m ≤ if m < s.next + 1 then 1 else 0
    simp only [placing, hfirst, count_ids_clone, Bool.false_eq_true, if_false] at hr hf ⊢
    omega
  · rcases List.mem_cons.mp hm with rfl | hm
    · exact ⟨hnarrow.imp_right fun hle => by rw [htype]; exact hle, hin'⟩
    · cases List.mem_singleton.mp hm
      exact ⟨trivial, trivial⟩

omit [DecidableEq A] in
/-- The message of a task is deleted. -/
theorem finish (h : Inv s) {i : ℕ} {t : Task A κ} {msg : Message κ} (ht : s.tasks[i]? = some t)
    (ho : ∀ m, [msg.id].count m ≤ t.weigh (owning m)) : Inv ((s.replace i []).delete msg) := by
  refine h.of_le rfl (fun m => ?_) (fun m => ?_) (forall_tasks h.tasks (List.forall_mem_nil _))
  · have hr := total_replace (owning m) ht []
    have hw := ho m
    show (s.replace i []).total (owning m) + Function.update s.deleted msg.id (s.deleted msg.id + 1) m ≤ _
    rw [update_eq]
    simp only [List.map_nil, List.sum_nil] at hr
    omega
  · have hr := total_replace (placing m) ht []
    show (s.replace i []).total (placing m) + s.enqueued m ≤ _
    simp only [List.map_nil, List.sum_nil] at hr
    omega

/-- An actor takes a message. -/
theorem take (h : Inv s) {a : A} {i : ℕ} {ptr : Message κ} (hi : (s.mailbox a)[i]? = some ptr) :
    Inv { s with
      mailbox := Function.update s.mailbox a ((s.mailbox a).eraseIdx i)
      tasks := s.tasks ++ [.run a ptr] } := by
  refine h.of_le rfl (fun m => ?_) (fun m => ?_) fun t hm => ?_
  · rw [total_take _ hi]
  · rw [total_take _ hi]
  · rcases List.mem_append.mp hm with hm | hm
    · exact h.tasks t hm
    · cases List.mem_singleton.mp hm
      exact ⟨trivial, trivial⟩

/-- The contacts of a supervisor change: no list of them has become shorter, and no message with
another inside is being broadcast to two contacts. -/
theorem link (h : Inv s) {this : A} {c : SupervisorAbstract.Contacts A κ}
    (hlen : ∀ k, (addresses (s.contacts this) k).length ≤ (addresses c k).length)
    (hc : ∀ t ∈ s.tasks, t.Narrow (Function.update s.contacts this c)) :
    Inv { s with contacts := Function.update s.contacts this c } := by
  refine h.of_le rfl (fun _ => le_rfl) (fun _ => le_rfl) fun t ht => ⟨hc t ht, ?_⟩
  have hwithin := (h.tasks t ht).2
  cases t with
  | enqueue msg target => trivial
  | run a ptr => trivial
  | broadcast b tmp walk =>
    show walk.pos ≤ (walk.list (Function.update s.contacts this c b)).length
    by_cases hb : b = this
    · subst hb
      rw [Function.update_self]
      exact Nat.le_trans hwithin (walk.list_mono hlen)
    · rw [Function.update_of_ne hb]
      exact hwithin

/-- **One step** that meets the condition keeps the invariant. -/
theorem step (h : Inv s) {type : A → κ} {kind : A → Kind} {x : Action A κ} (hx : OneByOne type s x)
    (hs : s.step type kind x = some s') : Inv s' := by
  cases x with
  | send target c =>
    cases hs
    exact h.send target c
  | delegateSend supervisor k c =>
    cases hs
    exact h.send supervisor (.delegate k c)
  | broadcast this c =>
    cases hs
    exact h.startBroadcast hx
  | broadcastType this k c =>
    simp only [State.step] at hs
    split at hs <;> cases hs
    exact h.startBroadcast hx
  | enqueue i =>
    simp only [State.step] at hs
    split at hs
    next ht => exact h.enqueueBase ht hs
    next => cases hs
  | clone i k =>
    simp only [State.step] at hs
    split at hs
    next this tmp walk ht =>
      split at hs <;> cases hs
      next hn => exact h.clone ht hn
    next => cases hs
  | finish i =>
    simp only [State.step] at hs
    split at hs
    next this tmp walk ht =>
      split_ifs at hs
      cases hs
      exact h.finish ht fun m => Nat.le_add_right _ _
    next a ptr ht =>
      cases hs
      refine h.finish ht fun m => ?_
      show _ ≤ ptr.ids.count m
      rw [count_ids]
      exact Nat.le_add_right _ _
    next => cases hs
  | take a i =>
    simp only [State.step] at hs
    split at hs <;> cases hs
    next hi => exact h.take hi
  | addLink this address =>
    simp only [State.step] at hs
    split at hs <;> cases hs
    next c hc =>
    refine h.link (length_addresses_addLinkImpl hc) (hx c ?_)
    rw [hc]
    rfl
  | removeLink this address =>
    simp only [State.step] at hs
    split at hs <;> cases hs
    next c hc =>
    have hlookup := lookup_removeLinkImpl hc
    refine h.link (fun k => ?_) fun t ht => ?_
    · rw [addresses, addresses, hlookup]
    · exact (h.tasks t ht).1.update (length_targets hlookup)

end Inv

/-! ### Every run -/

theorem inv_of_reachableBy {type : A → κ} {kind : A → Kind}
    (h : (messaging type kind).ReachableBy (OneByOne type) s) : Inv s := by
  refine h.invariant ?_ fun s x s' hI hx hs => hI.step hx hs
  rintro s rfl
  have htotal : ∀ w : Weight κ, State.total w ({} : State A κ) = 0 := by
    intro w
    have h₁ : tally (fun l : List (Message κ) => (l.map w.mailbox).sum) ({} : State A κ).mailbox = 0 :=
      tally_const_zero fun _ => rfl
    have h₂ : tally (weighCurrent w) ({} : State A κ).current = 0 := tally_const_zero fun _ => rfl
    rw [State.total, h₁, h₂]
    rfl
  refine ⟨fun m => ?_, fun m => ?_, List.forall_mem_nil _⟩
  · rw [htotal]
    exact Nat.zero_le _
  · rw [htotal]
    exact Nat.zero_le _

/-! ### Broadcasts to two contacts -/

/-- No contact is the empty address. -/
def Named (contacts : SupervisorAbstract.Contacts A κ) : Prop :=
  ∀ k, ∀ l ∈ contacts.lookup k, none ∉ l

omit [Fintype A] [DecidableEq A] in
theorem named_insert {c : SupervisorAbstract.Contacts A κ} (h : Named c) {k : κ} {l : List (Address A)}
    (hl : none ∉ l) : Named (c.insert k l) := by
  intro k' l' hl'
  by_cases hk : k' = k
  · subst hk
    rw [AList.lookup_insert] at hl'
    cases hl'
    exact hl
  · rw [AList.lookup_insert_ne hk] at hl'
    exact h k' l' hl'

omit [Fintype A] in
theorem named_addLinkImpl {type : A → κ} {this : A} {c c' : SupervisorAbstract.Contacts A κ}
    {address : Address A} (h : Named c)
    (hc : SupervisorAbstract.addLinkImpl type this c address = .ok c') : Named c' := by
  unfold SupervisorAbstract.addLinkImpl at hc
  split at hc
  next => cases hc
  next a =>
    split_ifs at hc
    · cases hc
      exact h
    · split at hc <;> cases hc
      next => exact named_insert h (by simp)
      next l hl => exact named_insert h (by simp [h _ l hl])

omit [Fintype A] in
theorem named_removeLinkImpl {type : A → κ} {c c' : SupervisorAbstract.Contacts A κ}
    {address : Address A} (h : Named c)
    (hc : SupervisorAbstract.removeLinkImpl type c address = .ok c') : Named c' := by
  unfold SupervisorAbstract.removeLinkImpl at hc
  split at hc
  next => cases hc
  next name _ =>
    split at hc
    next => cases hc; exact h
    next l hl =>
      by_cases ha : address ∈ l
      · rw [SupervisorAbstract.eraseLoop_of_mem ha] at hc
        cases hc
      · rw [SupervisorAbstract.eraseLoop_of_notMem ha] at hc
        cases hc
        exact named_insert h (h _ l hl)

omit [Fintype A] in
/-- A step changes contacts only by adding or removing a link. -/
theorem named_step {type : A → κ} {kind : A → Kind} {x : Action A κ} (h : ∀ a, Named (s.contacts a))
    (hs : s.step type kind x = some s') : ∀ a, Named (s'.contacts a) := by
  cases x with
  | send target c => cases hs; exact h
  | delegateSend supervisor k c => cases hs; exact h
  | broadcast this c => cases hs; exact h
  | broadcastType this k c =>
    simp only [State.step] at hs
    split at hs <;> cases hs
    exact h
  | enqueue i =>
    simp only [State.step, State.enqueueBase] at hs
    split at hs
    · split at hs
      · cases hs; exact h
      · split at hs
        · cases hs; exact h
        · cases hs; exact h
        · split at hs <;> cases hs
          exact h
    · cases hs
  | clone i k =>
    simp only [State.step] at hs
    split at hs
    · split at hs <;> cases hs
      exact h
    · cases hs
  | finish i =>
    simp only [State.step] at hs
    split at hs
    · split_ifs at hs
      cases hs
      exact h
    · cases hs
      exact h
    · cases hs
  | take a i =>
    simp only [State.step] at hs
    split at hs <;> cases hs
    exact h
  | addLink this address =>
    simp only [State.step] at hs
    split at hs <;> cases hs
    next c hc =>
    exact (Function.forall_update_iff s.contacts fun _ => Named).mpr
      ⟨named_addLinkImpl (h this) hc, fun a _ => h a⟩
  | removeLink this address =>
    simp only [State.step] at hs
    split at hs <;> cases hs
    next c hc =>
    exact (Function.forall_update_iff s.contacts fun _ => Named).mpr
      ⟨named_removeLinkImpl (h this) hc, fun a _ => h a⟩

omit [Fintype A] in
theorem named_of_reachable {type : A → κ} {kind : A → Kind} (h : (messaging type kind).Reachable s) :
    ∀ a, Named (s.contacts a) := by
  refine System.Reachable.invariant (I := fun s => ∀ a, Named (s.contacts a)) ?_
    (fun s x s' hI hs => named_step hI hs) h
  rintro s rfl a k l hl
  cases hl

omit [Fintype A] [DecidableEq A] in
theorem Named.targets {c : SupervisorAbstract.Contacts A κ} (h : Named c) {type : Option κ} {x : Address A}
    (hx : x ∈ targets c type) : ∃ a, x = some a := by
  have hlist : ∀ k, none ∉ addresses c k := by
    intro k hm
    rw [addresses] at hm
    cases hl : c.lookup k with
    | none =>
      rw [hl] at hm
      cases hm
    | some l =>
      rw [hl] at hm
      exact h k l hl hm
  have hne : x ≠ none := by
    rintro rfl
    cases type with
    | some k => exact hlist k hx
    | none =>
      obtain ⟨k, -, hk⟩ := List.mem_flatMap.mp hx
      exact hlist k hk
  exact Option.ne_none_iff_exists'.mp hne

/-- The first two rounds of a broadcast to two contacts or more make two owners of the inner
message. -/
theorem two_owners {type : A → κ} {kind : A → Kind} {this : A} {t k : Option κ} {c : Content κ}
    (hn : Named (s.contacts this)) (hlen : 1 < (targets (s.contacts this) t).length) :
    ∃ k₁ k₂ s₂ s₃ m, (s.startBroadcast this t (.delegate k c)).step type kind
        (.clone s.tasks.length k₁) = some s₂ ∧
      s₂.step type kind (.clone s.tasks.length k₂) = some s₃ ∧ 2 ≤ s₃.owners m := by
  obtain ⟨k₁, x, w₁, k₂, y, w₂, hnext₁, hnext₂, hx, hy⟩ := Walk.exists_next_next hlen
  obtain ⟨a, rfl⟩ := hn.targets hx
  obtain ⟨b, rfl⟩ := hn.targets hy
  obtain ⟨tmp, n, hmake⟩ : ∃ tmp n, (Content.delegate k c).make s.next = (tmp, n) := ⟨_, _, rfl⟩
  obtain ⟨m, hm⟩ : ∃ m, 0 < tmp.carried.count m := by
    refine ⟨(c.make s.next).1.id, ?_⟩
    rw [show tmp = ((Content.delegate k c).make s.next).1 by rw [hmake]]
    show 0 < (c.make s.next).1.ids.count _
    rw [Message.ids_eq, List.count_cons_self]
    exact Nat.succ_pos _
  -- the broadcast begins, and two rounds follow
  let walk : Walk κ := .first (s.contacts this) t
  let s₁ : State A κ := { s with next := n, tasks := s.tasks ++ [.broadcast this tmp walk] }
  let s₂ : State A κ := State.replace { s₁ with next := n + 1 } s.tasks.length
    [.broadcast this tmp w₁, .enqueue (tmp.clone n) a]
  let s₃ : State A κ := State.replace { s₂ with next := n + 2 } s.tasks.length
    [.broadcast this tmp w₂, .enqueue (tmp.clone (n + 1)) b]
  have hstart : s.startBroadcast this t (.delegate k c) = s₁ := by
    unfold State.startBroadcast
    rw [hmake]
  have ht₁ : s₁.tasks[s.tasks.length]? = some (.broadcast this tmp walk) := by
    show (s.tasks ++ [_])[s.tasks.length]? = _
    rw [List.getElem?_append_right le_rfl, Nat.sub_self]
    rfl
  have ht₂ : s₂.tasks[s.tasks.length]? = some (.broadcast this tmp w₁) := by
    show ((s.tasks ++ [_]).eraseIdx s.tasks.length ++ _)[s.tasks.length]? = _
    rw [List.eraseIdx_append_of_length_le le_rfl, Nat.sub_self, List.eraseIdx_cons_zero, List.append_nil,
      List.getElem?_append_right le_rfl, Nat.sub_self]
    rfl
  have hstep₁ : s₁.step type kind (.clone s.tasks.length k₁) = some s₂ := by
    simp only [State.step, ht₁]
    rw [show s₁.contacts this = s.contacts this from rfl, hnext₁]
  have hstep₂ : s₂.step type kind (.clone s.tasks.length k₂) = some s₃ := by
    simp only [State.step, ht₂]
    rw [show s₂.contacts this = s.contacts this from rfl, hnext₂]
    rfl
  refine ⟨k₁, k₂, s₂, s₃, m, by rw [hstart]; exact hstep₁, hstep₂, ?_⟩
  have hpos : decide (w₁.pos = 0) = false := decide_eq_false (Walk.of_next hnext₁).2.1
  have hadd : s₁.total (owning m) = s.total (owning m) + (owning m).template tmp (walk.pos = 0) :=
    total_add _ _ _
  have hr₁ : s₂.total (owning m) + (owning m).template tmp (walk.pos = 0) =
      s₁.total (owning m) + ((owning m).template tmp false + (owning m).pointer (tmp.clone n)) :=
    total_clone (owning m) ht₁ (Walk.of_next hnext₁).2.1 a
  have hr₂ : s₃.total (owning m) + (owning m).template tmp (w₁.pos = 0) =
      s₂.total (owning m) + ((owning m).template tmp false + (owning m).pointer (tmp.clone (n + 1))) :=
    total_clone (owning m) ht₂ (Walk.of_next hnext₂).2.1 b
  have hclone : ∀ n', tmp.carried.count m ≤ (owning m).pointer (tmp.clone n') := by
    intro n'
    show _ ≤ (tmp.clone n').ids.count m
    rw [count_ids_clone]
    exact Nat.le_add_left _ _
  have h₁ := hclone n
  have h₂ := hclone (n + 1)
  rw [hpos] at hr₂
  show 2 ≤ s₃.total (owning m)
  omega

omit [Fintype A] in
/-- A broadcast that does not meet the condition is that of a message with another inside to two
contacts or more. -/
theorem not_oneByOne {type : A → κ} {kind : A → Kind} {x : Action A κ} {this : A} {c : Content κ}
    (hb : x = .broadcast this c ∨ ∃ k, x = .broadcastType this k c) (hx : ¬ OneByOne type s x)
    (hs : s.step type kind x = some s') :
    ∃ t k c', s' = s.startBroadcast this t (.delegate k c') ∧
      1 < (targets (s.contacts this) t).length := by
  rcases hb with rfl | ⟨k', rfl⟩
  · obtain ⟨hc, hlen⟩ := not_or.mp hx
    cases c with
    | plain => exact absurd rfl hc
    | delegate k c =>
      cases hs
      exact ⟨none, k, c, rfl, Nat.lt_of_not_le hlen⟩
  · obtain ⟨hc, hlen⟩ := not_or.mp hx
    cases c with
    | plain => exact absurd rfl hc
    | delegate k c =>
      simp only [State.step] at hs
      split at hs <;> cases hs
      exact ⟨some k', k, c, rfl, Nat.lt_of_not_le hlen⟩

/-- **Every message has at most one owner**, in every state that a run reaches in which no
message with another inside is broadcast to two or more contacts; it has none once it is
deleted, and it is put in a mailbox at most once. Contacts that are linked before the broadcast
ends count as well. Where such a run goes on with a broadcast to two or more, the first two
rounds of its loops make two owners of the message inside. -/
theorem unique_owner {type : A → κ} {kind : A → Kind}
    (h : (messaging type kind).ReachableBy (OneByOne type) s) :
    (∀ m, s.owners m + s.deleted m ≤ 1 ∧ s.enqueued m ≤ 1) ∧
      ∀ this c x s₁, (x = .broadcast this c ∨ ∃ k, x = .broadcastType this k c) → ¬ OneByOne type s x →
        s.step type kind x = some s₁ →
        ∃ k₁ k₂ s₂ s₃ m, s₁.step type kind (.clone s.tasks.length k₁) = some s₂ ∧
          s₂.step type kind (.clone s.tasks.length k₂) = some s₃ ∧ 2 ≤ s₃.owners m := by
  have hi := inv_of_reachableBy h
  refine ⟨fun m => ?_, fun this c x s₁ hb hx hs => ?_⟩
  · have ho := hi.owned m
    have hp := hi.placed m
    have hle : (if m < s.next then 1 else 0) ≤ 1 := by split_ifs <;> omega
    exact ⟨ho.trans hle, by omega⟩
  · obtain ⟨t, k, c', rfl, hlen⟩ := not_oneByOne hb hx hs
    exact two_owners (named_of_reachable h.reachable this) hlen

/-- The types of five parties, of which three are supervisors and two are actors. -/
def fiveType (a : Fin 5) : ℕ := if a < 3 then 0 else 1

/-- Three supervisors and two actors. -/
def five : System (State (Fin 5) ℕ) (Action (Fin 5) ℕ) :=
  messaging fiveType fun a => if a < 3 then .supervisor else .actor

/-- A supervisor broadcasts a "delegate" message to its only contact, which passes the inner
message on to an actor. -/
theorem unique_owner_one : ∃ s, five.ReachableBy (OneByOne fiveType) s ∧ s.enqueued 0 = 1 ∧
    ∀ m, s.owners m + s.deleted m ≤ 1 ∧ s.enqueued m ≤ 1 := by
  obtain ⟨s, hs, hq⟩ : ∃ s, five.replay (fun s x => decide (OneByOne fiveType s x)) {}
      [.addLink 0 (some 1), .addLink 1 (some 3), .broadcast 0 (.delegate (some 1) .plain),
        .clone 0 (some 0), .enqueue 1, .enqueue 1, .finish 0, .take 3 0, .finish 0] = some s ∧ s.enqueued 0 = 1 :=
    ⟨_, rfl, rfl⟩
  have h : five.ReachableBy (OneByOne fiveType) s :=
    .of_replay (fun _ _ hx => of_decide_eq_true hx) ⟨[], .init rfl, System.meets_nil _⟩ hs
  exact ⟨s, h, hq, (unique_owner h).1⟩

/-- A "delegate" message is broadcast to two supervisors. Both pass the inner message on to an
actor of their own: it is in two mailboxes, and then both actors delete it. -/
theorem two_mailboxes : ∃ s s', five.Reachable s ∧ five.Reachable s' ∧
    s.owners 0 = 2 ∧ s.enqueued 0 = 2 ∧ s'.deleted 0 = 2 := by
  refine ⟨_, _, System.Reachable.of_actions rfl [.addLink 0 (some 1), .addLink 0 (some 2),
      .addLink 1 (some 3), .addLink 2 (some 4), .broadcast 0 (.delegate (some 1) .plain), .clone 0 (some 0),
      .enqueue 1, .enqueue 1, .clone 0 none, .enqueue 1, .enqueue 1, .finish 0] rfl,
    System.Reachable.of_actions rfl [.addLink 0 (some 1), .addLink 0 (some 2),
      .addLink 1 (some 3), .addLink 2 (some 4), .broadcast 0 (.delegate (some 1) .plain), .clone 0 (some 0),
      .enqueue 1, .enqueue 1, .clone 0 none, .enqueue 1, .enqueue 1, .finish 0, .take 3 0, .finish 0,
      .take 4 0, .finish 0] rfl, ?_, ?_, ?_⟩ <;> decide

end ActorsFramework.Messaging.Ownership
