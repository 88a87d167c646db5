import Mathlib.Data.List.AList

/-!
# Contacts of actors and supervisors

The `contacts_` of `actor_abstract` and of `supervisor_abstract`, and what the
handlers "add_link" and "remove_link", `link` and `sync` do with them. An actor
keeps one address for each type name, a supervisor a list of them in the order
they came.

A party is an object that has an address; its type name is a parameter. The map
is `AList`, whose keys are distinct; nothing depends on their order. What the
language leaves undefined is a `Fault`.
-/

namespace ActorsFramework.Supervisor

variable {A κ : Type*} [DecidableEq A] [DecidableEq κ]

/-- `address_t`: a pointer to a party, null for the empty address. -/
abbrev Address (A : Type*) := Option A

/-- What stops a thread, or leaves its further behaviour undefined. -/
inductive Fault where
  /-- A member function of the party is called through an empty address. -/
  | nullAddress
  /-- An iterator to an element that has been erased is incremented. -/
  | erasedIterator
  /-- The first element of an empty list is read. -/
  | emptyList
  /-- `at` throws: there is no such key. -/
  | outOfRange
  deriving DecidableEq

/-- `address_t::type`. -/
def Address.type (type : A → κ) : Address A → Except Fault κ
  | none => .error .nullAddress
  | some a => .ok (type a)

/-- A message "add_link" on its way. -/
structure AddLink (A : Type*) where
  /-- To whom it is sent. -/
  target : A
  /-- Its sender. -/
  sender : Address A
  deriving DecidableEq

/-- `send(address, sender, "add_link")`. -/
def sendAddLink (address sender : Address A) : Except Fault (AddLink A) :=
  match address with
  | none => .error .nullAddress
  | some a => .ok ⟨a, sender⟩

/-- `link_imp`. -/
def linkImp (a1 a2 : Address A) : Except Fault (List (AddLink A)) :=
  match sendAddLink a1 a2 with
  | .error e => .error e
  | .ok m1 =>
    match sendAddLink a2 a1 with
    | .error e => .error e
    | .ok m2 => .ok [m1, m2]

namespace ActorAbstract

/-- `actor_abstract::contacts_`. -/
abbrev Contacts (A κ : Type*) := AList fun _ : κ => Address A

/-- `actor_abstract::address_book`. -/
def addressBook (contacts : Contacts A κ) (name : κ) : Except Fault (Address A) :=
  match contacts.lookup name with
  | none => .error .outOfRange
  | some address => .ok address

/-- `actor_abstract::add_link_impl`, by the actor `this`: `emplace` does nothing where the key
is taken. -/
def addLinkImpl (type : A → κ) (this : A) (contacts : Contacts A κ) (address : Address A) :
    Except Fault (Contacts A κ) :=
  match address with
  -- the warning in the other branch asks the address for its type
  | none => .error .nullAddress
  | some a =>
    if a = this then .ok contacts
    else if (contacts.lookup (type a)).isSome then .ok contacts
    else .ok (contacts.insert (type a) address)

/-- `actor_abstract::remove_link_impl`: whatever address is kept for the type goes. -/
def removeLinkImpl (type : A → κ) (contacts : Contacts A κ) (address : Address A) :
    Except Fault (Contacts A κ) :=
  match address.type type with
  | .error e => .error e
  | .ok name => .ok (contacts.erase name)

end ActorAbstract

namespace SupervisorAbstract

/-- `supervisor_abstract::contacts_`. -/
abbrev Contacts (A κ : Type*) := AList fun _ : κ => List (Address A)

/-- `supervisor_abstract::address_book`. -/
def addressBook (contacts : Contacts A κ) (type : κ) : Except Fault (Address A) :=
  match contacts.lookup type with
  | none => .ok none
  | some [] => .error .emptyList
  | some (address :: _) => .ok address

/-- `supervisor_abstract::add_link_impl`, by the supervisor `this`. -/
def addLinkImpl (type : A → κ) (this : A) (contacts : Contacts A κ) (address : Address A) :
    Except Fault (Contacts A κ) :=
  match address with
  -- the warning in the other branch asks the address for its type
  | none => .error .nullAddress
  | some a =>
    if a = this then .ok contacts
    else
      match contacts.lookup (type a) with
      | none => .ok (contacts.insert (type a) [address])
      | some l => .ok (contacts.insert (type a) (l ++ [address]))

/-- The loop of `remove_link_impl`: where the address is found it is erased, and the iterator
that pointed to it is then incremented. -/
def eraseLoop (address : Address A) : List (Address A) → Except Fault (List (Address A))
  | [] => .ok []
  | i :: l => if address = i then .error .erasedIterator else (eraseLoop address l).map (i :: ·)

/-- `supervisor_abstract::remove_link_impl`. -/
def removeLinkImpl (type : A → κ) (contacts : Contacts A κ) (address : Address A) :
    Except Fault (Contacts A κ) :=
  match address.type type with
  | .error e => .error e
  | .ok name =>
    match contacts.lookup name with
    | none => .ok contacts
    | some l => (eraseLoop address l).map (contacts.insert name ·)

/-- `supervisor_abstract::sync`, with the sender of the current message: the new contacts, and
the messages that are sent. -/
def sync (type : A → κ) (this : A) (contacts : Contacts A κ) (sender address : Address A) :
    Except Fault (Contacts A κ × List (AddLink A)) :=
  match addLinkImpl type this contacts address with
  | .error e => .error e
  | .ok contacts =>
    match sendAddLink address (some this) with
    | .error e => .error e
    | .ok m =>
      if sender.isSome ∧ sender ≠ some this then
        match linkImp sender address with
        | .error e => .error e
        | .ok ms => .ok (contacts, m :: ms)
      else .ok (contacts, [m])

/-- The loop over a list that does not hold the address leaves the list as it is. -/
theorem eraseLoop_of_notMem {address : Address A} {l : List (Address A)} (h : address ∉ l) :
    eraseLoop address l = .ok l := by
  induction l with
  | nil => rfl
  | cons i l ih =>
    obtain ⟨hi, hl⟩ := not_or.mp (mt List.mem_cons.mpr h)
    rw [eraseLoop, if_neg hi, ih hl]
    rfl

/-- The loop over a list that holds the address increments an erased iterator. -/
theorem eraseLoop_of_mem {address : Address A} {l : List (Address A)} (h : address ∈ l) :
    eraseLoop address l = .error .erasedIterator := by
  induction l with
  | nil => cases h
  | cons i l ih =>
    rw [eraseLoop]
    split_ifs with hi
    · rfl
    · rw [ih ((List.mem_cons.mp h).resolve_left hi)]
      rfl

end SupervisorAbstract

/-! ### What a sequence of links leaves behind -/

/-- The contacts of a supervisor that has added the parties of `l`, in this order. -/
def SupervisorAbstract.Keeps (type : A → κ) (contacts : Contacts A κ) (l : List A) : Prop :=
  ∀ k, contacts.lookup k =
    if l.filter (type · = k) = [] then none else some ((l.filter (type · = k)).map some)

/-- The contacts of an actor that has added the parties of `l`, in this order: the first of
each type. -/
def ActorAbstract.Keeps (type : A → κ) (contacts : Contacts A κ) (l : List A) : Prop :=
  ∀ k, contacts.lookup k = (l.find? (type · = k)).map some

section Keeps

variable {type : A → κ} {this : A} {l : List A}

omit [DecidableEq A] in
theorem SupervisorAbstract.keeps_empty : Keeps type (∅ : Contacts A κ) [] := fun k => by
  rw [AList.lookup_empty]; rfl

omit [DecidableEq A] in
theorem ActorAbstract.keeps_empty : Keeps type (∅ : Contacts A κ) [] := fun k => by
  rw [AList.lookup_empty]; rfl

/-- A supervisor adds a party behind those of its type. -/
theorem SupervisorAbstract.addLinkImpl_keeps {contacts : Contacts A κ} (h : Keeps type contacts l)
    {a : A} (ha : a ≠ this) :
    ∃ contacts', addLinkImpl type this contacts (some a) = .ok contacts' ∧
      Keeps type contacts' (l ++ [a]) := by
  have hk := h (type a)
  simp only [addLinkImpl, if_neg ha]
  by_cases he : l.filter (type · = type a) = []
  · rw [if_pos he] at hk
    rw [hk]
    refine ⟨_, rfl, fun k => ?_⟩
    by_cases hka : k = type a
    · subst hka
      rw [AList.lookup_insert, List.filter_append, he]
      simp
    · rw [AList.lookup_insert_ne hka, h k, List.filter_append]
      simp [Ne.symm hka]
  · rw [if_neg he] at hk
    rw [hk]
    refine ⟨_, rfl, fun k => ?_⟩
    by_cases hka : k = type a
    · subst hka
      rw [AList.lookup_insert, List.filter_append]
      simp
    · rw [AList.lookup_insert_ne hka, h k, List.filter_append]
      simp [Ne.symm hka]

/-- An actor adds a party only where it has none of its type. -/
theorem ActorAbstract.addLinkImpl_keeps {contacts : Contacts A κ} (h : Keeps type contacts l)
    {a : A} (ha : a ≠ this) :
    ∃ contacts', addLinkImpl type this contacts (some a) = .ok contacts' ∧
      Keeps type contacts' (l ++ [a]) := by
  have hk := h (type a)
  simp only [addLinkImpl, if_neg ha]
  cases hf : l.find? (type · = type a) with
  | some b =>
    rw [hf] at hk
    rw [hk]
    refine ⟨_, rfl, fun k => ?_⟩
    rw [h k, List.find?_append]
    by_cases hka : k = type a
    · subst hka
      rw [hf]; rfl
    · simp [Ne.symm hka]
  | none =>
    rw [hf] at hk
    rw [hk]
    refine ⟨_, rfl, fun k => ?_⟩
    rw [List.find?_append]
    by_cases hka : k = type a
    · subst hka
      rw [AList.lookup_insert, hf]; simp
    · rw [AList.lookup_insert_ne hka, h k]
      simp [Ne.symm hka]

end Keeps

end ActorsFramework.Supervisor
