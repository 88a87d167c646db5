import ActorsFramework.Messaging.Delegate
import ActorsFramework.Supervisor.MutualLinks

/-!
# Executing a message

`execute` looks the command up in `handlers_`. It invokes the handler that it finds, and
where it finds none it prints a warning. "add_link" and "remove_link" are handlers
like any other; "add_link" prints a warning where the address is empty or the
party's own.

The warnings name the type of the sender, and "remove_link" looks for a contact of that
type. So all of them ask the sender for it, also where there is no sender: a message
may have an empty address in its place. `execute_safe_iff` says which messages are
executed without a call through null.
-/

namespace ActorsFramework.Supervisor

/-- The party's `remove_link_impl`. -/
def PartyContacts.removeLinkImpl {A κ : Type*} [DecidableEq A] [DecidableEq κ] (type : A → κ)
    (address : Address A) : PartyContacts A κ → Except Fault (PartyContacts A κ)
  | .actor c => (ActorAbstract.removeLinkImpl type c address).map .actor
  | .supervisor c => (SupervisorAbstract.removeLinkImpl type c address).map .supervisor

end ActorsFramework.Supervisor

namespace ActorsFramework.Messaging

open Lib Supervisor

variable {A B F : Type} {El : B → Type}

/-- What is registered under a name: a member function of `actor_abstract` or of
`supervisor_abstract`, or a function of a derived class. -/
inductive Registered (B F : Type) where
  /-- `supervisor_abstract::redirect`. -/
  | redirect
  /-- `add_link`. -/
  | addLink
  /-- `remove_link`. -/
  | removeLink
  /-- A function `f`, with its handler. -/
  | own (h : Handler (Basic B)) (f : F)

/-- The handler that `add_handler` makes. -/
def Registered.handler : Registered B F → Handler (Basic B)
  | .redirect => redirectHandler B
  | .addLink | .removeLink => .member []
  | .own h _ => h

/-- `handlers_`, with the functions that are behind the handlers. -/
abbrev Table (B F : Type) := AList fun _ : String => Registered B F

/-- `on`: what was there first stays. -/
def Table.on (handlers : Table B F) (name : String) (r : Registered B F) : Table B F :=
  if (handlers.lookup name).isSome then handlers else handlers.insert name r

/-- The table that calls of `add_handler` build. -/
def Table.ofCalls (rs : List (String × Registered B F)) : Table B F :=
  rs.foldl (fun handlers r => handlers.on r.1 r.2) ∅

/-- What the constructors of the two classes register. -/
def constructorCalls : Kind → List (String × Registered B F)
  | .actor => [("add_link", .addLink), ("remove_link", .removeLink)]
  | .supervisor => [("delegate", .redirect), ("add_link", .addLink), ("remove_link", .removeLink)]

/-- An actor or a supervisor. -/
structure Party (A B F : Type) where
  /-- `handlers_`. -/
  handlers : Table B F
  /-- `contacts_`. -/
  contacts : PartyContacts A String

/-- What an invocation comes to. -/
inductive Invocation (A : Type) (El : B → Type) where
  /-- A link handler: the contacts that it leaves, or what stops it. -/
  | link (r : Except Supervisor.Fault (PartyContacts A String))
  /-- Any other: the values that the function is called with, if the body has them. -/
  | call (c : Except Fault (Call (Basic.Value A El)))

/-- What `execute` does. -/
inductive Executed (A F : Type) (El : B → Type) where
  /-- A handler is invoked. -/
  | invoked (r : Registered B F) (i : Invocation A El)
  /-- The warning is printed, and the party is left like this. -/
  | skipped (p : Party A B F)

section Execute

variable [DecidableEq A] [DecidableEq B] (type : A → String) (this : A)

/-- `handler::invoke`, on the party whose contacts these are. -/
def Registered.invoke (contacts : PartyContacts A String) (m : Msg A El) :
    Registered B F → Invocation A El
  | .addLink => .link (contacts.addLinkImpl type this m.sender)
  | .removeLink => .link (contacts.removeLinkImpl type m.sender)
  | .redirect => .call ((redirectHandler B).invoke m)
  | .own h _ => .call (h.invoke m)

/-- `communication_module::execute`, with this message as the current one. -/
def Party.execute (p : Party A B F) (m : Msg A El) : Except Fault (Executed A F El) :=
  match p.handlers.lookup m.command with
  | some r => .ok (.invoked r (r.invoke type this p.contacts m))
  | none =>
    match m.sender.type type with
    | .error e => .error (.contacts e)
    | .ok _ => .ok (.skipped p)

end Execute

/-- What was registered first under a name. -/
def firstRegistered (rs : List (String × Registered B F)) (name : String) : Option (Registered B F) :=
  (rs.find? fun r => r.1 = name).map Prod.snd

/-- What is asked of `execute`, where `first` was registered first under the command. -/
structure Safe (first : Option (Registered B F)) (p : Party A B F)
    (outcome : Except Fault (Executed A F El)) : Prop where
  /-- What was registered first is invoked, and nothing else. -/
  invoked : ∀ r, first = some r → ∃ i, outcome = .ok (.invoked r i)
  /-- Where nothing was registered, `execute` returns and changes nothing. -/
  skipped : first = none → outcome = .ok (.skipped p)
  /-- `execute` calls no member function through an empty address. -/
  execute : outcome ≠ .error (.contacts .nullAddress)
  /-- Nor does a link handler. -/
  link : ∀ r, outcome ≠ .ok (.invoked r (.link (.error .nullAddress)))

/-! ### The table -/

theorem Table.lookup_on (handlers : Table B F) (name name' : String) (r : Registered B F) :
    (handlers.on name r).lookup name' =
      if name' = name ∧ handlers.lookup name = none then some r else handlers.lookup name' :=
  lookup_insert_absent handlers name name' r

/-- **What was registered first is what is found.** -/
theorem Table.lookup_ofCalls (rs : List (String × Registered B F)) (name : String) :
    (Table.ofCalls rs).lookup name = firstRegistered rs name := by
  have h := lookup_foldl_absent rs (∅ : Table B F) name
  rw [AList.lookup_empty, Option.none_or] at h
  exact h

/-! ### The handlers alone -/

section Forget

variable [DecidableEq B]

/-- The same handlers, without what is behind them. -/
def Forgets (t : Table B F) (handlers : Handlers String (Basic B)) : Prop :=
  ∀ name, handlers.lookup name = (t.lookup name).map Registered.handler

omit [DecidableEq B] in
theorem Forgets.on {t : Table B F} {handlers : Handlers String (Basic B)} (h : Forgets t handlers)
    (name : String) (r : Registered B F) : Forgets (t.on name r) (handlers.on name r.handler) := by
  intro name'
  simp only [lookup_on, Table.lookup_on, h name, h name', Option.map_eq_none_iff]
  split_ifs
  · rfl
  · rfl

omit [DecidableEq B] in
/-- The handlers of a supervisor are those of `allHandlers`. -/
theorem forgets_allHandlers (more : List (String × Registered B F)) :
    Forgets (Table.ofCalls (constructorCalls .supervisor ++ more))
      (allHandlers (more.map fun r => (r.1, r.2.handler))) := by
  rw [Table.ofCalls, List.foldl_append, allHandlers, List.foldl_map]
  suffices h : ∀ (t : Table B F) (handlers : Handlers String (Basic B)), Forgets t handlers →
      Forgets (more.foldl (fun t r => t.on r.1 r.2) t)
        (more.foldl (fun handlers r => handlers.on r.1 r.2.handler) handlers) by
    have h₀ : Forgets (∅ : Table B F) (∅ : Handlers String (Basic B)) := fun _ => rfl
    exact h _ _ (((h₀.on "delegate" .redirect).on "add_link" .addLink).on "remove_link" .removeLink)
  induction more with
  | nil => exact fun t handlers h => h
  | cons r more ih => exact fun t handlers h => ih _ _ (h.on r.1 r.2)

/-- The calls that are made where a handler is invoked. -/
def Executed.calls (m : Msg A El) : Executed A F El → Except Fault (List (Call (Basic.Value A El)))
  | .invoked r _ => (r.handler.invoke m).map fun c => [c]
  | .skipped _ => .ok []

/-- Without what is behind the handlers, `execute` is the function that makes the calls. -/
theorem Forgets.execute [DecidableEq A] {p : Party A B F} {handlers : Handlers String (Basic B)}
    (h : Forgets p.handlers handlers) (type : A → String) (this : A) (m : Msg A El) :
    Messaging.execute type handlers m = (p.execute type this m).bind (Executed.calls m) := by
  rw [Messaging.execute, h, Party.execute]
  cases p.handlers.lookup m.command with
  | some r => rfl
  | none =>
    cases m.sender with
    | none => rfl
    | some a => rfl

end Forget

/-! ### The empty sender -/

section Empty

variable [DecidableEq A] {type : A → String} {this : A}

theorem addLinkImpl_none (c : PartyContacts A String) :
    c.addLinkImpl type this none = .error .nullAddress := by
  cases c <;> rfl

theorem removeLinkImpl_none (c : PartyContacts A String) :
    c.removeLinkImpl type none = .error .nullAddress := by
  cases c <;> rfl

/-- `add_link_impl` returns where there is an address. -/
theorem addLinkImpl_some (a : A) (c : PartyContacts A String) :
    ∃ c', c.addLinkImpl type this (some a) = .ok c' := by
  cases c with
  | actor c =>
    rw [PartyContacts.addLinkImpl, ActorAbstract.addLinkImpl]
    split_ifs
    · exact ⟨_, rfl⟩
    · exact ⟨_, rfl⟩
    · exact ⟨_, rfl⟩
  | supervisor c =>
    rw [PartyContacts.addLinkImpl, SupervisorAbstract.addLinkImpl]
    split_ifs
    · exact ⟨_, rfl⟩
    · cases c.lookup (type a) with
      | none => exact ⟨_, rfl⟩
      | some l => exact ⟨_, rfl⟩

/-- `remove_link_impl` may fail for another reason then, in the loop of a supervisor. -/
theorem removeLinkImpl_some (a : A) (c : PartyContacts A String) :
    c.removeLinkImpl type (some a) ≠ .error .nullAddress := by
  cases c with
  | actor c =>
    intro h
    cases h
  | supervisor c =>
    rw [PartyContacts.removeLinkImpl, SupervisorAbstract.removeLinkImpl, Address.type]
    dsimp only
    intro h
    cases hl : c.lookup (type a) with
    | none =>
      rw [hl] at h
      cases h
    | some l =>
      rw [hl] at h
      dsimp only at h
      by_cases hmem : some a ∈ l
      · rw [SupervisorAbstract.eraseLoop_of_mem hmem] at h
        cases h
      · rw [SupervisorAbstract.eraseLoop_of_notMem hmem] at h
        cases h

variable [DecidableEq B]

/-- Only the link handlers call a member function through null, and only where there is no
sender. -/
theorem Registered.invoke_null (c : PartyContacts A String) (m : Msg A El) (r : Registered B F) :
    r.invoke type this c m = .link (.error .nullAddress) ↔
      m.sender = none ∧ (r = .addLink ∨ r = .removeLink) := by
  cases hs : m.sender with
  | none =>
    rw [and_iff_right rfl]
    cases r with
    | redirect => simp [Registered.invoke]
    | addLink => simp [Registered.invoke, hs, addLinkImpl_none]
    | removeLink => simp [Registered.invoke, hs, removeLinkImpl_none]
    | own h f => simp [Registered.invoke]
  | some a =>
    refine iff_of_false (fun h => ?_) fun h => Option.some_ne_none a h.1
    cases r with
    | redirect => cases h
    | addLink =>
      obtain ⟨c', hc⟩ := @addLinkImpl_some A _ type this a c
      rw [Registered.invoke, hs, hc] at h
      cases h
    | removeLink =>
      rw [Registered.invoke, hs] at h
      exact removeLinkImpl_some a c (Invocation.link.inj h)
    | own h' f => cases h

/-- A party with these handlers. -/
theorem execute_eq (rs : List (String × Registered B F)) (c : PartyContacts A String) (m : Msg A El) :
    (⟨Table.ofCalls rs, c⟩ : Party A B F).execute type this m =
      match firstRegistered rs m.command with
      | some r => .ok (.invoked r (r.invoke type this c m))
      | none =>
        match m.sender.type type with
        | .error e => .error (.contacts e)
        | .ok _ => .ok (.skipped ⟨Table.ofCalls rs, c⟩) := by
  rw [Party.execute, Table.lookup_ofCalls]

omit [DecidableEq A] [DecidableEq B] in
/-- Where a handler was registered, it must not call through null. -/
theorem safe_invoked_iff {r : Registered B F} {p : Party A B F} {i : Invocation A El} :
    Safe (some r) p (.ok (.invoked r i)) ↔ i ≠ .link (.error .nullAddress) := by
  constructor
  · rintro h rfl
    exact h.link r rfl
  · intro hi
    constructor
    · intro r' hr
      cases hr
      exact ⟨i, rfl⟩
    · intro h
      cases h
    · intro h
      cases h
    · intro r' h
      exact hi (Executed.invoked.inj (Except.ok.inj h)).2

omit [DecidableEq A] [DecidableEq B] in
/-- Where none was registered, the message must be skipped. -/
theorem safe_none_iff {p : Party A B F} {outcome : Except Fault (Executed A F El)} :
    Safe none p outcome ↔ outcome = .ok (.skipped p) := by
  constructor
  · intro h
    exact h.skipped rfl
  · rintro rfl
    constructor
    · intro r hr
      cases hr
    · intro _
      rfl
    · intro h
      cases h
    · intro r h
      cases h

/-- **A message is executed as it should be exactly where it has a sender, or its command
a handler that is neither of the link handlers**: what was registered first under the
command is invoked, nothing is changed where nothing was registered, and no member function is
called through an empty address. -/
theorem execute_safe_iff (kind : Kind) (more : List (String × Registered B F))
    (c : PartyContacts A String) (m : Msg A El) :
    Safe (firstRegistered (constructorCalls kind ++ more) m.command)
        (⟨Table.ofCalls (constructorCalls kind ++ more), c⟩ : Party A B F)
        ((⟨Table.ofCalls (constructorCalls kind ++ more), c⟩ : Party A B F).execute type this m) ↔
      m.sender ≠ none ∨ ∃ r, firstRegistered (constructorCalls kind ++ more) m.command = some r ∧
        r ≠ .addLink ∧ r ≠ .removeLink := by
  rw [execute_eq]
  cases hf : firstRegistered (constructorCalls kind ++ more) m.command with
  | some r =>
    dsimp only
    rw [safe_invoked_iff, Ne, Registered.invoke_null, not_and_or, not_or]
    simp
  | none =>
    dsimp only
    rw [safe_none_iff]
    cases hs : m.sender with
    | none =>
      refine iff_of_false (fun h => by cases h) ?_
      rintro (h | ⟨r, hr, -⟩)
      · exact h rfl
      · cases hr
    | some a => exact iff_of_true rfl (.inl (Option.some_ne_none a))

/-- A message without a sender: an actor that does not know the command and a supervisor that is
asked to add a link both call a member function through null. -/
theorem execute_empty_sender :
    (let p : Party ℕ Unit Unit := ⟨Table.ofCalls (constructorCalls .actor ++ []), .actor ∅⟩
      let m : Msg ℕ fun _ => ℕ := ⟨none, "unknown", .noValue⟩
      p.execute (fun _ => "worker") 0 m = .error (.contacts .nullAddress) ∧
        ¬ Safe (firstRegistered (constructorCalls .actor ++ []) m.command) p
          (p.execute (fun _ => "worker") 0 m)) ∧
    (let p : Party ℕ Unit Unit := ⟨Table.ofCalls (constructorCalls .supervisor ++ []), .supervisor ∅⟩
      let m : Msg ℕ fun _ => ℕ := ⟨none, "add_link", .noValue⟩
      p.execute (fun _ => "worker") 0 m = .ok (.invoked .addLink (.link (.error .nullAddress))) ∧
        ¬ Safe (firstRegistered (constructorCalls .supervisor ++ []) m.command) p
          (p.execute (fun _ => "worker") 0 m)) :=
  ⟨⟨rfl, fun h => h.execute rfl⟩, ⟨rfl, fun h => h.link .addLink rfl⟩⟩

end Empty

end ActorsFramework.Messaging
