import Mathlib.Data.List.Basic
import Mathlib.Logic.Function.Basic
import ActorsFramework.Lib.Transition

/-!
# Objects of type `address_t`

An `address_t` is one pointer. The explicit constructors set it, the default
constructor sets it to null, the copy constructor copies it, and both assignments
swap. The move constructor swaps too, but with a pointer that nothing has set, and
this is what the source is left with: it stays alive with an indeterminate pointer.
The handlers "add_link" move from the sender of the current message, which is kept.

`clean_iff`: in a run, all addresses that are alive are empty or designate a module
from which an address was constructed, as long as none is constructed by a move.

What the language leaves undefined has no step.
-/

namespace ActorsFramework.Supervisor

open Lib

/-- The value of `ptr_`. -/
inductive PtrValue (A : Type*) where
  /-- Null: the address is empty. -/
  | null
  /-- The address designates this module. -/
  | module (a : A)
  /-- Nothing has set the pointer. -/
  | indeterminate
  deriving DecidableEq

/-- An entry of an actor's `contacts_`. -/
structure Contact (L A κ : Type*) where
  /-- The actor. -/
  actor : A
  /-- The key. -/
  name : κ
  /-- Where the address is. -/
  node : L
  deriving DecidableEq

/-- The objects of type `address_t`, by the places where they are. -/
structure Addresses (L A κ : Type*) where
  /-- The pointer of each object that is alive. -/
  ptr : L → Option (PtrValue A)
  /-- The modules from which an address has been constructed explicitly. -/
  constructed : List A
  /-- The `contacts_` of all actors. -/
  contacts : List (Contact L A κ)

/-- What can happen to addresses. -/
inductive AddressAction (L A κ : Type*) where
  /-- `address_t(a)`. -/
  | construct (l : L) (a : A)
  /-- `empty_address()`. -/
  | emptyAddress (l : L)
  /-- `address_t(other)`. -/
  | copyConstruct (l other : L)
  /-- `address_t(std::move(other))`. -/
  | moveConstruct (l other : L)
  /-- `l = other`, with the place of the temporary copy. -/
  | copyAssign (l other tmp : L)
  /-- `l = std::move(other)`. -/
  | moveAssign (l other : L)
  /-- `l.swap(other)`. -/
  | swap (l other : L)
  /-- The end of an object that is not among an actor's contacts. -/
  | destroy (l : L)
  /-- The handler of the supervisor `this`, with the places of the parameter of `add_link_impl` and
  of the contact. -/
  | addLinkSupervisor (this : A) (sender address node : L)
  /-- The handler of the actor `this`, with the place of the contact. -/
  | addLinkActor (this : A) (sender node : L)
  /-- `contacts_.erase`, by an actor. -/
  | eraseContact (this : A) (name : κ)
  deriving DecidableEq

variable {L A κ : Type*} [DecidableEq L]

namespace Addresses

variable (s : Addresses L A κ)

/-- The object at `l` gets this pointer, or ends. -/
def set (l : L) (v : Option (PtrValue A)) : Addresses L A κ :=
  { s with ptr := Function.update s.ptr l v }

/-- `swap`. -/
def swap (l other : L) : Addresses L A κ := (s.set l (s.ptr other)).set other (s.ptr l)

/-- The copy constructor, for an object that is not its own source. -/
def copyConstruct (l other : L) : Addresses L A κ := s.set l (s.ptr other)

/-- `operator=(const address_t&)`. -/
def copyAssign (l other tmp : L) : Addresses L A κ :=
  if l = other then s else ((s.copyConstruct tmp other).swap l tmp).set tmp none

/-- `operator=(address_t&&)`. -/
def moveAssign (l other : L) : Addresses L A κ := if l = other then s else s.swap l other

section Step

-- the objects of static storage duration: their memory is zero before they are constructed
variable (static : L → Bool)

/-- An object before its constructor has run. -/
def storage (l : L) : Addresses L A κ :=
  s.set l (some (if static l then .null else .indeterminate))

/-- The move constructor: it sets no pointer before it swaps. -/
def moveConstruct (l other : L) : Addresses L A κ := (s.storage static l).swap l other

variable [DecidableEq A] [DecidableEq κ] (type : A → κ)
  -- whether `emplace` constructs an entry before it looks for the key, which is left open
  (eager : Bool)

/-- The actor has a contact under this key. -/
def hasContact (this : A) (name : κ) : Bool := s.contacts.any fun c => c.actor = this ∧ c.name = name

/-- `supervisor_abstract::add_link`: the parameter of `add_link_impl` is constructed from the
sender. -/
def addLinkSupervisor (this : A) (sender address node : L) : Option (Addresses L A κ) :=
  let s := s.moveConstruct static address sender
  match s.ptr address with
  | some (.module a) =>
    if a = this then some (s.set address none)
    else some ((s.moveConstruct static node address).set address none)
  -- a member function is called through the pointer, or the pointer is read
  | _ => none

/-- `actor_abstract::add_link`. -/
def addLinkActor (this : A) (sender node : L) : Option (Addresses L A κ) :=
  match s.ptr sender with
  | some (.module a) =>
    if a = this then some s
    else if s.hasContact this (type a) then
      if eager then some ((s.moveConstruct static node sender).set node none) else some s
    else some { s.moveConstruct static node sender with contacts := ⟨this, type a, node⟩ :: s.contacts }
  | _ => none

/-- The effect of an action. An object is constructed where none is alive, and the other objects
that take part are alive. -/
def step : AddressAction L A κ → Option (Addresses L A κ)
  | .construct l a =>
    if s.ptr l = none then
      some { s.set l (some (.module a)) with constructed := a :: s.constructed }
    else none
  | .emptyAddress l => if s.ptr l = none then some (s.set l (some .null)) else none
  | .copyConstruct l other =>
    if s.ptr l = none ∧ s.ptr other ≠ none then some (s.copyConstruct l other) else none
  | .moveConstruct l other =>
    if s.ptr l = none ∧ s.ptr other ≠ none then some (s.moveConstruct static l other) else none
  | .copyAssign l other tmp =>
    if s.ptr l ≠ none ∧ s.ptr other ≠ none ∧ s.ptr tmp = none then some (s.copyAssign l other tmp)
    else none
  | .moveAssign l other =>
    if s.ptr l ≠ none ∧ s.ptr other ≠ none then some (s.moveAssign l other) else none
  | .swap l other => if s.ptr l ≠ none ∧ s.ptr other ≠ none then some (s.swap l other) else none
  | .destroy l =>
    if s.ptr l ≠ none ∧ ∀ c ∈ s.contacts, c.node ≠ l then some (s.set l none) else none
  | .addLinkSupervisor this sender address node =>
    if s.ptr sender ≠ none ∧ s.ptr address = none ∧ s.ptr node = none ∧ address ≠ node ∧
        static address = false ∧ static node = false then
      s.addLinkSupervisor static this sender address node
    else none
  | .addLinkActor this sender node =>
    if s.ptr node = none ∧ static node = false then s.addLinkActor static type eager this sender node
    else none
  | .eraseContact this name =>
    (s.contacts.find? fun c => c.actor = this ∧ c.name = name).map fun c =>
      { s.set c.node none with contacts := s.contacts.erase c }

/-- Addresses, from the time when there is none. -/
def system : System (Addresses L A κ) (AddressAction L A κ) where
  Init s := s = ⟨fun _ => none, [], []⟩
  step s := s.step static type eager

/-- The action constructs an address by a move, and not in static storage. -/
def Moves : AddressAction L A κ → Prop
  | .moveConstruct l _ => static l = false
  | .addLinkSupervisor .. => True
  | .addLinkActor this sender _ =>
    ∃ a, s.ptr sender = some (.module a) ∧ a ≠ this ∧
      (eager = true ∨ s.hasContact this (type a) = false)
  | _ => False

end Step

end Addresses

/-- The pointer is null, or that of a module from which an address was constructed. -/
def PtrValue.Known (constructed : List A) : PtrValue A → Prop
  | .null => True
  | .module a => a ∈ constructed
  | .indeterminate => False

namespace Addresses

/-- No address has been invented. -/
def Clean (s : Addresses L A κ) : Prop := ∀ l v, s.ptr l = some v → v.Known s.constructed

variable {s s' : Addresses L A κ} {type : A → κ} {static : L → Bool} {eager : Bool} {l other : L}

theorem ptr_set (s : Addresses L A κ) (l x : L) (v : Option (PtrValue A)) :
    (s.set l v).ptr x = if x = l then v else s.ptr x := Function.update_apply ..

/-! ### Without moves -/

theorem Clean.set (h : s.Clean) {v : Option (PtrValue A)}
    (hv : ∀ w, v = some w → w.Known s.constructed) : (s.set l v).Clean := by
  intro x w hw
  rw [ptr_set] at hw
  split_ifs at hw
  · exact hv w hw
  · exact h x w hw

theorem Clean.destroy (h : s.Clean) : (s.set l none).Clean := by
  apply h.set
  intro w hw
  cases hw

theorem Clean.copyConstruct (h : s.Clean) : (s.copyConstruct l other).Clean := h.set (h other)

/-- Swapping moves pointers about. -/
theorem Clean.swap (h : s.Clean) : (s.swap l other).Clean := (h.set (h other)).set (h l)

theorem Clean.copyAssign (h : s.Clean) {tmp : L} : (s.copyAssign l other tmp).Clean := by
  rw [Addresses.copyAssign]
  split_ifs
  · exact h
  · exact h.copyConstruct.swap.destroy

theorem Clean.moveAssign (h : s.Clean) : (s.moveAssign l other).Clean := by
  rw [Addresses.moveAssign]
  split_ifs
  · exact h
  · exact h.swap

/-- In static storage there is null to swap with. -/
theorem Clean.moveConstruct (h : s.Clean) (hl : static l = true) :
    (s.moveConstruct static l other).Clean := by
  apply Clean.swap
  apply h.set
  intro w hw
  rw [if_pos hl] at hw
  cases hw
  trivial

theorem Clean.construct (h : s.Clean) (a : A) :
    Clean { s.set l (some (.module a)) with constructed := a :: s.constructed } := by
  have hmono : ∀ w : PtrValue A, w.Known s.constructed → w.Known (a :: s.constructed) := by
    intro w hw
    cases w with
    | null => trivial
    | module b => exact List.mem_cons_of_mem a hw
    | indeterminate => exact hw
  have hs : Clean { s with constructed := a :: s.constructed } := fun x w hw => hmono w (h x w hw)
  apply hs.set
  intro w hw
  cases hw
  exact List.mem_cons_self

omit [DecidableEq L] in
/-- Entries of `contacts_` hold no pointers. -/
theorem Clean.of_contacts (h : s.Clean) (contacts : List (Contact L A κ)) :
    Clean { s with contacts := contacts } := h

/-! ### With a move -/

/-- The source of a move is left with what the target had before. -/
theorem ptr_moveConstruct_source (hl : static l = false) :
    (s.moveConstruct static l other).ptr other = some .indeterminate := by
  rw [moveConstruct, swap, ptr_set, if_pos rfl, storage, ptr_set, if_pos rfl, hl]
  rfl

theorem ptr_moveConstruct_of_ne {x : L} (hl : x ≠ l) (hother : x ≠ other) :
    (s.moveConstruct static l other).ptr x = s.ptr x := by
  rw [moveConstruct, swap, ptr_set, if_neg hother, ptr_set, if_neg hl, storage, ptr_set, if_neg hl]

omit [DecidableEq L] in
theorem not_clean_of_indeterminate (h : s.ptr l = some .indeterminate) : ¬ s.Clean :=
  fun hc => hc l _ h

variable [DecidableEq A]

/-- The sender of the message is alive after the handler of a supervisor, and indeterminate. -/
theorem ptr_addLinkSupervisor {this : A} {sender address node : L} (ha : sender ≠ address)
    (hn : sender ≠ node) (hstatic : static address = false)
    (hs : s.addLinkSupervisor static this sender address node = some s') :
    s'.ptr sender = some .indeterminate := by
  rw [Addresses.addLinkSupervisor] at hs
  cases hptr : (s.moveConstruct static address sender).ptr address with
  | none =>
    rw [hptr] at hs
    cases hs
  | some v =>
    rw [hptr] at hs
    cases v with
    | null => cases hs
    | indeterminate => cases hs
    | module a =>
      dsimp only at hs
      split_ifs at hs
      · rw [← Option.some.inj hs, ptr_set, if_neg ha, ptr_moveConstruct_source hstatic]
      · rw [← Option.some.inj hs, ptr_set, if_neg ha, ptr_moveConstruct_of_ne hn ha,
          ptr_moveConstruct_source hstatic]

variable [DecidableEq κ]

/-- So it is after the handler of an actor that has constructed an entry. -/
theorem ptr_addLinkActor {this a : A} {sender node : L} (hptr : s.ptr sender = some (.module a))
    (hne : a ≠ this) (hmove : eager = true ∨ s.hasContact this (type a) = false)
    (hn : sender ≠ node) (hstatic : static node = false)
    (hs : s.addLinkActor static type eager this sender node = some s') :
    s'.ptr sender = some .indeterminate := by
  rw [Addresses.addLinkActor, hptr] at hs
  dsimp only at hs
  rw [if_neg hne] at hs
  split_ifs at hs with hhas heager
  · rw [← Option.some.inj hs, ptr_set, if_neg hn, ptr_moveConstruct_source hstatic]
  · rw [hhas] at hmove
    exact absurd hmove (by simp [heager])
  · rw [← Option.some.inj hs]
    exact ptr_moveConstruct_source hstatic

/-! ### One step -/

/-- The handler of an actor that constructs no entry leaves all pointers alone. -/
theorem Clean.addLinkActor (h : s.Clean) {this : A} {sender node : L}
    (hx : ¬ s.Moves static type eager (.addLinkActor this sender node))
    (hs : s.addLinkActor static type eager this sender node = some s') : s'.Clean := by
  rw [Addresses.addLinkActor] at hs
  cases hptr : s.ptr sender with
  | none =>
    rw [hptr] at hs
    cases hs
  | some v =>
    rw [hptr] at hs
    cases v with
    | null => cases hs
    | indeterminate => cases hs
    | module a =>
      dsimp only at hs
      -- where the sender is not the actor itself, the entry is there and no other is constructed
      split_ifs at hs with hthis hhas heager
      · exact Option.some.inj hs ▸ h
      · exact absurd ⟨a, hptr, hthis, .inl heager⟩ hx
      · exact Option.some.inj hs ▸ h
      · exact absurd ⟨a, hptr, hthis, .inr (Bool.of_not_eq_true hhas)⟩ hx

/-- **A step that constructs no address by a move** keeps what is known of all of them. -/
theorem Clean.step (h : s.Clean) {x : AddressAction L A κ} (hx : ¬ s.Moves static type eager x)
    (hs : s.step static type eager x = some s') : s'.Clean := by
  cases x with
  | construct l a =>
    rw [Addresses.step] at hs
    split_ifs at hs
    exact Option.some.inj hs ▸ h.construct a
  | emptyAddress l =>
    rw [Addresses.step] at hs
    split_ifs at hs
    rw [← Option.some.inj hs]
    apply h.set
    intro w hw
    cases hw
    trivial
  | copyConstruct l other =>
    rw [Addresses.step] at hs
    split_ifs at hs
    exact Option.some.inj hs ▸ h.copyConstruct
  | moveConstruct l other =>
    rw [Addresses.step] at hs
    split_ifs at hs
    exact Option.some.inj hs ▸ h.moveConstruct (Bool.of_not_eq_false hx)
  | copyAssign l other tmp =>
    rw [Addresses.step] at hs
    split_ifs at hs
    exact Option.some.inj hs ▸ h.copyAssign
  | moveAssign l other =>
    rw [Addresses.step] at hs
    split_ifs at hs
    exact Option.some.inj hs ▸ h.moveAssign
  | swap l other =>
    rw [Addresses.step] at hs
    split_ifs at hs
    exact Option.some.inj hs ▸ h.swap
  | destroy l =>
    rw [Addresses.step] at hs
    split_ifs at hs
    exact Option.some.inj hs ▸ h.destroy
  | addLinkSupervisor this sender address node => exact absurd trivial hx
  | addLinkActor this sender node =>
    rw [Addresses.step] at hs
    split_ifs at hs
    exact h.addLinkActor hx hs
  | eraseContact this name =>
    rw [Addresses.step] at hs
    obtain ⟨c, -, rfl⟩ := Option.map_eq_some_iff.mp hs
    exact h.destroy.of_contacts _

/-- **A step that constructs an address by a move** leaves an indeterminate pointer behind. -/
theorem not_clean_step {x : AddressAction L A κ} (hx : s.Moves static type eager x)
    (hs : s.step static type eager x = some s') : ¬ s'.Clean := by
  cases x with
  | moveConstruct l other =>
    rw [Addresses.step] at hs
    split_ifs at hs
    rw [← Option.some.inj hs]
    exact not_clean_of_indeterminate (ptr_moveConstruct_source hx)
  | addLinkSupervisor this sender address node =>
    rw [Addresses.step] at hs
    split_ifs at hs with hg
    obtain ⟨halive, ha, hn, -, hstatic, -⟩ := hg
    refine not_clean_of_indeterminate (ptr_addLinkSupervisor ?_ ?_ hstatic hs)
    · rintro rfl
      exact halive ha
    · rintro rfl
      exact halive hn
  | addLinkActor this sender node =>
    rw [Addresses.step] at hs
    split_ifs at hs with hg
    obtain ⟨hn, hstatic⟩ := hg
    obtain ⟨a, hptr, hne, hmove⟩ := hx
    refine not_clean_of_indeterminate (ptr_addLinkActor hptr hne hmove ?_ hstatic hs)
    rintro rfl
    rw [hptr] at hn
    cases hn
  | construct | emptyAddress | copyConstruct | copyAssign | moveAssign | swap | destroy
  | eraseContact => exact hx.elim

/-- **No address is invented exactly as long as none is constructed by a move.** -/
theorem clean_iff {tr : List (Addresses L A κ × AddressAction L A κ)}
    (h : (system static type eager).Run tr s) :
    ((∀ p ∈ tr, p.1.Clean) ∧ s.Clean) ↔
      System.Meets (fun s x => ¬ s.Moves static type eager x) tr := by
  induction h with
  | init h₀ =>
    refine iff_of_true ⟨List.forall_mem_nil _, ?_⟩ (System.meets_nil _)
    rw [h₀]
    intro l v hv
    cases hv
  | @step tr s s' x _ hs ih =>
    rw [System.meets_concat, ← ih]
    constructor
    · rintro ⟨htr, hs'⟩
      obtain ⟨htr, hlast⟩ := List.forall_mem_append.mp htr
      refine ⟨⟨htr, hlast _ (List.mem_singleton_self _)⟩, fun hx => ?_⟩
      exact not_clean_step hx hs hs'
    · rintro ⟨⟨htr, hclean⟩, hx⟩
      refine ⟨List.forall_mem_append.mpr ⟨htr, fun p hp => ?_⟩, hclean.step hx hs⟩
      rw [List.mem_singleton.mp hp]
      exact hclean

/-- An address is constructed and copied, and the copy is moved to an empty one. -/
theorem clean_iff_assigned : ∃ (tr : List (Addresses ℕ ℕ String × AddressAction ℕ ℕ String))
    (s : Addresses ℕ ℕ String),
    (system (fun _ => false) (fun _ => "worker") true).Run tr s ∧
      s.ptr 1 = some .null ∧ s.ptr 2 = some (.module 5) ∧ (∀ p ∈ tr, p.1.Clean) ∧ s.Clean := by
  have hr := System.Run.step (T := system (fun _ => false) (fun _ : ℕ => "worker") true)
    (a := .moveAssign 2 1) (.step (a := .emptyAddress 2) (.step (a := .copyConstruct 1 0)
      (.step (a := .construct 0 5) (.init rfl) rfl) rfl) rfl) rfl
  have hC := (clean_iff hr).mpr (System.meets_concat.mpr ⟨System.meets_concat.mpr
    ⟨System.meets_concat.mpr ⟨System.meets_concat.mpr ⟨System.meets_nil _, id⟩, id⟩, id⟩, id⟩)
  exact ⟨_, _, hr, rfl, rfl, hC⟩

/-- The supervisor `7` adds a link with the sender of the current message, which is at `0`: it is
left with an indeterminate pointer. -/
theorem sender_indeterminate : ∃ (tr : List (Addresses ℕ ℕ String × AddressAction ℕ ℕ String))
    (s : Addresses ℕ ℕ String),
    (system (fun _ => false) (fun _ => "worker") true).Run tr s ∧
      tr.map Prod.snd = [.construct 0 5, .addLinkSupervisor 7 0 1 2] ∧
      s.ptr 2 = some (.module 5) ∧ s.ptr 0 = some .indeterminate ∧ ¬ s.Clean :=
  ⟨_, _, .step (a := .addLinkSupervisor 7 0 1 2) (.step (a := .construct 0 5) (.init rfl) rfl) rfl,
    rfl, rfl, rfl, not_clean_of_indeterminate (l := 0) rfl⟩

end Addresses

end ActorsFramework.Supervisor
