import ActorsFramework.Messaging.Handler

/-!
# Delegation

`delegate_send` wraps a message in another one, "delegate", whose body is a pair: who
the inner message is for, and a pointer to it. The supervisor that processes it
takes the pair out again (`redirect`), makes itself the sender of the inner message
and sends it on to the contact of that type name.

Two of the three overloads name the target by a type string, as `redirect` expects;
the third puts an `address_t` in its place. The body then holds a tuple of another
type, the cast throws, and nothing is delivered: `delegate_iff`.
-/

namespace ActorsFramework.Messaging

open Lib Supervisor

variable {A B : Type} (El : B → Type)

/-- The basic types that a "delegate" message is made of, and any others. -/
inductive Basic (B : Type) where
  /-- `std::string`. -/
  | string
  /-- `address_t`. -/
  | address
  /-- `message*`. -/
  | messagePtr
  /-- Another type. -/
  | user (b : B)
  deriving DecidableEq

/-- Their values; a pointer to a message is a number. -/
def Basic.Value (A : Type) (El : B → Type) : Basic B → Type
  | .string => String
  | .address => Address A
  | .messagePtr => ℕ
  | .user b => El b

instance [∀ b, Inhabited (El b)] : ∀ b, Inhabited (Basic.Value A El b)
  | .string => ⟨("" : String)⟩
  | .address => ⟨(none : Address A)⟩
  | .messagePtr => ⟨(0 : ℕ)⟩
  | .user _ => ⟨(default : El _)⟩

/-- A message between actors and supervisors. -/
abbrev Msg (A : Type) (El : B → Type) := Message A String (Basic.Value A El)

variable {El}

/-- A string as a value. -/
def stringVal (s : String) : Val (Basic.Value A El) (.base .string) := .base (b := Basic.string) s

/-- An address as a value. -/
def addressVal (a : Address A) : Val (Basic.Value A El) (.base .address) := .base (b := Basic.address) a

/-- A pointer as a value. -/
def messagePtrVal (p : ℕ) : Val (Basic.Value A El) (.base .messagePtr) := .base (b := Basic.messagePtr) p

section Send

variable [∀ b, Inhabited (El b)]

/-- `delegate_send` with the target named by a type string, to a `supervisor` and to an
`address_t` of one: the message that is sent, where the inner one was created at `p`. -/
def delegateSend (supervisor : A) (type : String) (p : ℕ) : Msg A El :=
  makeMessage (some supervisor) "delegate" (.cons (stringVal type) (.cons (messagePtrVal p) .nil))

/-- `delegate_send` with the target given as an `address_t`. -/
def delegateSendAddress (supervisor : A) (type : Address A) (p : ℕ) : Msg A El :=
  makeMessage (some supervisor) "delegate" (.cons (addressVal type) (.cons (messagePtrVal p) .nil))

/-- The inner message that `delegate_send` creates. -/
def delegated {ts : List (Ty (Basic B))} (command : String) (args : Vals (Basic.Value A El) ts) :
    Msg A El :=
  makeMessagePtr none command args

/-- How the target is given to `delegate_send`. -/
inductive Target (A : Type) where
  /-- As a type string. -/
  | type (name : String)
  /-- As an address. -/
  | address (a : A)

/-- The overload of `delegate_send` that takes the target. -/
def Target.delegateSend (supervisor : A) (p : ℕ) : Target A → Msg A El
  | .type name => Messaging.delegateSend supervisor name p
  | .address a => delegateSendAddress supervisor (some a) p

end Send

/-- What a supervisor works on: its contacts, the messages that exist, and what it has
enqueued to whom. -/
structure SupervisorState (A : Type) (El : B → Type) where
  /-- `contacts_`. -/
  contacts : SupervisorAbstract.Contacts A String
  /-- The messages, by pointer. -/
  heap : ℕ → Option (Msg A El)
  /-- The messages that have been enqueued, each with its target. -/
  enqueued : List (A × ℕ) := []

/-- `supervisor_abstract::redirect`. -/
def redirect (this : A) (type : String) (msg : ℕ) (d : SupervisorState A El) : Except Fault (SupervisorState A El) :=
  match d.heap msg with
  | none => .error (.contacts .nullAddress)
  | some tmp =>
    let heap := Function.update d.heap msg (some { tmp with sender := some this })
    match SupervisorAbstract.addressBook d.contacts type with
    | .error e => .error (.contacts e)
    -- `enqueue` through an empty address
    | .ok none => .error (.contacts .nullAddress)
    | .ok (some a) => .ok { d with heap := heap, enqueued := d.enqueued ++ [(a, msg)] }

/-- The handler for "delegate": `redirect`, with the decayed types of its parameters. -/
def redirectHandler (B : Type) : Handler (Basic B) := .member [.base .string, .base .messagePtr]

/-- The handlers that the constructor of `supervisor_abstract` registers. -/
def supervisorHandlers (B : Type) : Handlers String (Basic B) :=
  (((∅ : Handlers String (Basic B)).on "delegate" (redirectHandler B)).on "add_link" (.member [])).on
    "remove_link" (.member [])

/-- Those and the ones that a derived class registers. -/
def allHandlers (more : List (String × Handler (Basic B))) : Handlers String (Basic B) :=
  more.foldl (fun hs h => hs.on h.1 h.2) (supervisorHandlers B)

/-- The call of the handler "delegate". -/
def delegateCall (this : A) (d : SupervisorState A El) : Call (Basic.Value A El) → Except Fault (SupervisorState A El)
  | ⟨[.base .string, .base .messagePtr], .cons (.base s) (.cons (.base p) .nil)⟩ =>
    redirect this s p d
  | _ => .ok d

theorem delegateCall_eq (this : A) (d : SupervisorState A El) (name : String) (p : ℕ) :
    delegateCall this d ⟨[.base .string, .base .messagePtr],
      .cons (stringVal name) (.cons (messagePtrVal p) .nil)⟩ = redirect this name p d := rfl

/-- The supervisor processes a "delegate" message. -/
def processDelegate [DecidableEq B] (type : A → String) (this : A)
    (more : List (String × Handler (Basic B))) (m : Msg A El) (d : SupervisorState A El) :
    Except Fault (SupervisorState A El) :=
  match execute type (allHandlers more) m with
  | .error e => .error e
  | .ok calls => calls.foldlM (delegateCall this) d

/-- Whom the target stands for: the contact that `address_book` returns for a type name, or
the contact that is given. -/
def Target.Is (type : A → String) (contacts : SupervisorAbstract.Contacts A String) :
    Target A → A → Prop
  | .type name, a => SupervisorAbstract.addressBook contacts name = .ok (some a)
  | .address b, a => b = a ∧ ∃ l, contacts.lookup (type b) = some l ∧ some b ∈ l

/-- The registered handler for "delegate" is the supervisor's own, whatever is registered
later. -/
theorem lookup_allHandlers (more : List (String × Handler (Basic B))) :
    (allHandlers more).lookup "delegate" = some (redirectHandler B) := by
  have h := lookup_foldl_absent more (supervisorHandlers B) "delegate"
  rw [show (supervisorHandlers B).lookup "delegate" = some (redirectHandler B) from rfl,
    Option.some_or] at h
  exact h

variable [DecidableEq B]

/-- What is asked of a delegation: the supervisor has processed the message, exactly the inner
message was enqueued, to the target, with the same command and arguments and the supervisor
as its sender, and the contacts are what they were. -/
structure Delivers [∀ b, Inhabited (El b)] (d : SupervisorState A El) (this : A) (a : A) (p : ℕ)
    {ts : List (Ty (Basic B))} (command : String) (args : Vals (Basic.Value A El) ts)
    (outcome : Except Fault (SupervisorState A El)) : Prop where
  /-- The message was processed. -/
  processed : ∃ d', outcome = .ok d'
  /-- One message was enqueued, to the target. -/
  enqueued : ∀ d', outcome = .ok d' → d'.enqueued = d.enqueued ++ [(a, p)]
  /-- It is the one that was created, but for the sender. -/
  message : ∀ d', outcome = .ok d' →
    d'.heap p = some { makeMessagePtr (none : Address A) command args with sender := some this }
  /-- No other message was changed. -/
  others : ∀ d', outcome = .ok d' → ∀ q, q ≠ p → d'.heap q = d.heap q
  /-- The contacts are what they were. -/
  contacts : ∀ d', outcome = .ok d' → d'.contacts = d.contacts

variable [∀ b, Inhabited (El b)] {type : A → String} {this : A}

/-- The body of a delegation by type string is what the handler expects. -/
theorem execute_delegateSend (more : List (String × Handler (Basic B))) (name : String) (p : ℕ) :
    execute type (allHandlers more) (delegateSend this name p : Msg A El) =
      .ok [⟨[.base .string, .base .messagePtr],
        .cons (stringVal name) (.cons (messagePtrVal p) .nil)⟩] := by
  have h := invoke_makeMessagePtr (h := redirectHandler B) rfl
    (storable_cons_cons _ _ _) (.cons (stringVal name) (.cons (messagePtrVal p) .nil) :
      Vals (Basic.Value A El) [.base .string, .base .messagePtr]) (some this) "delegate"
  rw [delegateSend, makeMessage_eq, execute, command_makeMessagePtr, lookup_allHandlers]
  exact congrArg (Except.map fun c => [c]) h

/-- The body of a delegation by address is not. -/
theorem execute_delegateSendAddress (more : List (String × Handler (Basic B))) (a : Address A)
    (p : ℕ) :
    execute type (allHandlers more) (delegateSendAddress this a p : Msg A El) =
      .error .badAnyCast := by
  have h := invoke_of_encodedType_ne (h := redirectHandler B)
    (body_makeMessagePtr (storable_cons_cons _ _ _)
      (.cons (addressVal a) (.cons (messagePtrVal p) .nil) :
        Vals (Basic.Value A El) [.base .address, .base .messagePtr]) (some this) "delegate")
    (List.cons_ne_nil _ _) (by intro h; cases h)
  rw [delegateSendAddress, makeMessage_eq, execute, command_makeMessagePtr, lookup_allHandlers]
  exact congrArg (Except.map fun c => [c]) h

omit [DecidableEq B] [∀ b, Inhabited (El b)] in
/-- `redirect` of a message that exists, to a contact that exists. -/
theorem redirect_eq (this : A) {d : SupervisorState A El} {name : String} {p : ℕ} {m : Msg A El} {a : A}
    (hm : d.heap p = some m)
    (ha : SupervisorAbstract.addressBook d.contacts name = .ok (some a)) :
    redirect this name p d = .ok { d with
      heap := Function.update d.heap p (some { m with sender := some this })
      enqueued := d.enqueued ++ [(a, p)] } := by
  simp only [redirect, hm, ha]

/-- **Delegation delivers exactly where the target is named by its type string.** -/
theorem delegate_iff (more : List (String × Handler (Basic B))) (d : SupervisorState A El) (target : Target A)
    (a : A) (ha : target.Is type d.contacts a) (p : ℕ) {ts : List (Ty (Basic B))} (command : String)
    (args : Vals (Basic.Value A El) ts) :
    Delivers d this a p command args
        (processDelegate type this more (target.delegateSend this p)
          { d with heap := Function.update d.heap p (some (delegated command args)) }) ↔
      ∃ name, target = .type name := by
  cases target with
  | type name =>
    refine iff_of_true ?_ ⟨name, rfl⟩
    have hr := redirect_eq this (d := { d with
      heap := Function.update d.heap p (some (delegated command args)) }) (Function.update_self ..) ha
    rw [Target.delegateSend, processDelegate, execute_delegateSend]
    simp only [List.foldlM_cons, List.foldlM_nil, delegateCall_eq, hr]
    constructor
    · exact ⟨_, rfl⟩
    · rintro _ ⟨⟩
      rfl
    · rintro _ ⟨⟩
      exact Function.update_self ..
    · rintro _ ⟨⟩ q hq
      show Function.update (Function.update _ _ _) _ _ q = _
      rw [Function.update_of_ne hq, Function.update_of_ne hq]
    · rintro _ ⟨⟩
      rfl
  | address b =>
    refine iff_of_false (fun h => ?_) (by rintro ⟨name, hn⟩; cases hn)
    obtain ⟨d', hd⟩ := h.processed
    rw [Target.delegateSend, processDelegate, execute_delegateSendAddress] at hd
    cases hd

/-- A supervisor whose only contact is the worker `1`. -/
def exampleState : SupervisorState ℕ fun _ : Unit => ℕ where
  contacts := AList.insert "worker" [some 1] ∅
  heap := fun _ => none

/-- Delegated by type string, the message arrives. -/
theorem delegate_iff_type :
    Delivers exampleState 0 1 5 "go" (.nil : Vals (Basic.Value ℕ fun _ : Unit => ℕ) [])
        (processDelegate (fun _ => "worker") 0 [] ((Target.type "worker").delegateSend 0 5)
          { exampleState with heap := Function.update exampleState.heap 5 (some (delegated "go" .nil)) }) ↔
      ∃ name, (Target.type "worker" : Target ℕ) = .type name :=
  delegate_iff [] exampleState (.type "worker") 1 rfl 5 "go" .nil

/-- Delegated by address, the same message to the same contact does not. -/
theorem delegate_by_address_throws :
    ∃ target : Target ℕ, target.Is (fun _ => "worker") exampleState.contacts 1 ∧
      processDelegate (fun _ => "worker") 0 [] (target.delegateSend 0 5)
          { exampleState with heap := Function.update exampleState.heap 5 (some (delegated "go" .nil)) } =
        .error .badAnyCast ∧
      ¬ Delivers exampleState 0 1 5 "go" (.nil : Vals (Basic.Value ℕ fun _ : Unit => ℕ) [])
        (processDelegate (fun _ => "worker") 0 [] (target.delegateSend 0 5)
          { exampleState with
            heap := Function.update exampleState.heap 5 (some (delegated "go" .nil)) }) := by
  refine ⟨.address 1, ⟨rfl, [some 1], rfl, List.mem_singleton_self _⟩, rfl, fun h => ?_⟩
  obtain ⟨d', hd⟩ := h.processed
  cases hd

end ActorsFramework.Messaging
