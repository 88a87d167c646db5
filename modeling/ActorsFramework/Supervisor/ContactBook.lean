import ActorsFramework.Lib.Transition
import ActorsFramework.Supervisor.Contacts

/-!
# The contact book of a supervisor

A supervisor as the book of its contacts: parties are added and removed, and
`address_book` is to return the one of a type that has been there longest. The
book itself, `Book`, is the list of contacts in the order in which they came;
`contacts_` is compared with it after every sequence of "add_link" and
"remove_link" messages, `sync` calls and lookups.

`remove_link_impl` erases a list node and then increments the iterator to it, so
the removal of a contact has no defined outcome. (Were the loop to go on, the
list of the last contact of a type would stay behind empty, and `address_book`
would read its first element.) An "add_link" or "remove_link" without a sender
asks the empty address for its type. `contactBook_iff`: a run in which neither
happens is in order in every state, and only such a run is.
-/

namespace ActorsFramework.Supervisor

open Lib

variable {A κ : Type*} [DecidableEq A] [DecidableEq κ]

/-- The contacts in the order in which they were added. -/
abbrev Book (A : Type*) := List A

namespace Book

/-- A contact is added; the supervisor is none of its own contacts. -/
def add (this : A) (book : Book A) : Address A → Book A
  | none => book
  | some a => if a = this then book else book ++ [a]

/-- A contact is removed. -/
def remove (book : Book A) : Address A → Book A
  | none => book
  | some a => book.filter (· ≠ a)

/-- The contact of a type that was added first, the empty address if there is none. -/
def earliest (type : A → κ) (book : Book A) (k : κ) : Address A := book.find? (type · = k)

end Book

/-- What a supervisor is asked to do with its contacts. -/
inductive Request (A κ : Type*) where
  /-- It processes an "add_link" from this sender. -/
  | addLink (sender : Address A)
  /-- It processes a "remove_link" from this sender. -/
  | removeLink (sender : Address A)
  /-- `sync` of this address, in a handler whose current message has this sender. (Before the first
  message `current_message_` is not initialized; and the handler "add_link" moves the sender out of
  its message.) -/
  | sync (sender address : Address A)
  /-- `address_book` of this type. -/
  | lookup (type : κ)

/-- A supervisor's contacts, and the book they should agree with. -/
inductive Desk (A κ : Type*) where
  /-- The last request was answered. -/
  | running (contacts : SupervisorAbstract.Contacts A κ) (book : Book A)
  /-- Some request had no defined outcome. -/
  | undefined

namespace Desk

open SupervisorAbstract

variable (type : A → κ) (this : A)

/-- The contacts after a request. -/
def process (contacts : Contacts A κ) : Request A κ → Except Fault (Contacts A κ)
  | .addLink sender => addLinkImpl type this contacts sender
  | .removeLink sender => removeLinkImpl type contacts sender
  | .sync sender address => (SupervisorAbstract.sync type this contacts sender address).map Prod.fst
  | .lookup type => (addressBook contacts type).map fun _ => contacts

/-- The book after a request. -/
def record (book : Book A) : Request A κ → Book A
  | .addLink sender => book.add this sender
  | .removeLink sender => book.remove sender
  | .sync _ address => book.add this address
  | .lookup _ => book

/-- Any requests, one after another. -/
def system : System (Desk A κ) (Request A κ) where
  Init s := s = .running ∅ []
  step
    | .undefined, _ => some .undefined
    | .running contacts book, r =>
      match process type this contacts r with
      | .error _ => some .undefined
      | .ok contacts => some (.running contacts (record this book r))

/-- Each key has a list of contacts, not empty, all of that type, and the supervisor is not
among them. -/
def WellFormed (contacts : Contacts A κ) : Prop :=
  ∀ k l, contacts.lookup k = some l → l ≠ [] ∧ ∀ x ∈ l, ∃ a, x = some a ∧ type a = k ∧ a ≠ this

/-- All is in order: every request so far was answered, the contacts are well formed, and
`address_book` returns the contact of a type that was added first. -/
def InOrder : Desk A κ → Prop
  | .undefined => False
  | .running contacts book =>
    WellFormed type this contacts ∧ ∀ k, addressBook contacts k = .ok (book.earliest type k)

/-- The request names a party where it has to, and does not remove a contact. -/
def Harmless : Desk A κ → Request A κ → Prop
  | .undefined, _ => True
  | .running _ _, .addLink sender => sender ≠ none
  | .running contacts _, .removeLink sender =>
    ∃ a, sender = some a ∧ ∀ l, contacts.lookup (type a) = some l → some a ∉ l
  | .running _ _, .sync _ address => address ≠ none
  | .running _ _, .lookup _ => True

variable {type this}

/-- The contacts hold what is in the book, and the supervisor is not in it. -/
structure Agrees (type : A → κ) (this : A) (contacts : Contacts A κ) (book : Book A) : Prop where
  keeps : Keeps type contacts book
  notThis : this ∉ book

omit [DecidableEq A] in
theorem Agrees.lookup_eq_some {contacts : Contacts A κ} {book : Book A}
    (h : Agrees type this contacts book) {k : κ} {l : List (Address A)}
    (hl : contacts.lookup k = some l) :
    book.filter (type · = k) ≠ [] ∧ l = (book.filter (type · = k)).map some := by
  have hk := h.keeps k
  rw [hl] at hk
  split_ifs at hk with he
  exact ⟨he, Option.some.inj hk⟩

omit [DecidableEq A] in
theorem Agrees.wellFormed {contacts : Contacts A κ} {book : Book A}
    (h : Agrees type this contacts book) : WellFormed type this contacts := by
  intro k l hl
  obtain ⟨hne, rfl⟩ := h.lookup_eq_some hl
  refine ⟨mt List.map_eq_nil_iff.mp hne, fun x hx => ?_⟩
  obtain ⟨a, ha, rfl⟩ := List.mem_map.mp hx
  obtain ⟨hab, hak⟩ := List.mem_filter.mp ha
  exact ⟨a, rfl, of_decide_eq_true hak, fun he => h.notThis (he ▸ hab)⟩

omit [DecidableEq A] in
theorem Agrees.addressBook {contacts : Contacts A κ} {book : Book A}
    (h : Agrees type this contacts book) (k : κ) :
    addressBook contacts k = .ok (book.earliest type k) := by
  have hk := h.keeps k
  have hf : book.earliest type k = (book.filter (type · = k)).head? := (List.head?_filter ..).symm
  unfold SupervisorAbstract.addressBook
  rw [hf]
  cases hl : book.filter (type · = k) with
  | nil => rw [hk, if_pos hl]; rfl
  | cons a l => rw [hk, if_neg (by rw [hl]; nofun), hl]; rfl

omit [DecidableEq A] in
/-- Contacts that agree with the book are in order. -/
theorem Agrees.inOrder {contacts : Contacts A κ} {book : Book A}
    (h : Agrees type this contacts book) : InOrder type this (.running contacts book) :=
  ⟨h.wellFormed, h.addressBook⟩

/-- An added contact is put down in the book. -/
theorem Agrees.addLinkImpl {contacts : Contacts A κ} {book : Book A}
    (h : Agrees type this contacts book) (a : A) :
    ∃ contacts', addLinkImpl type this contacts (some a) = .ok contacts' ∧
      Agrees type this contacts' (book.add this (some a)) := by
  by_cases ha : a = this
  · exact ⟨contacts, if_pos ha, by rw [Book.add, if_pos ha]; exact h⟩
  · obtain ⟨contacts', hc, hk⟩ := addLinkImpl_keeps h.keeps ha
    refine ⟨contacts', hc, ?_⟩
    rw [Book.add, if_neg ha]
    refine ⟨hk, fun hm => ?_⟩
    rcases List.mem_append.mp hm with hm | hm
    · exact h.notThis hm
    · exact ha (List.mem_singleton.mp hm).symm

omit [DecidableEq A] in
/-- A contact is in the list of its type exactly if it is in the book. -/
theorem Agrees.mem_book {contacts : Contacts A κ} {book : Book A}
    (h : Agrees type this contacts book) {a : A} :
    a ∈ book ↔ ∃ l, contacts.lookup (type a) = some l ∧ some a ∈ l := by
  constructor
  · intro ha
    have hm : a ∈ book.filter (type · = type a) := List.mem_filter.mpr ⟨ha, decide_eq_true rfl⟩
    refine ⟨_, by rw [h.keeps, if_neg (List.ne_nil_of_mem hm)], List.mem_map_of_mem hm⟩
  · rintro ⟨l, hl, ha⟩
    obtain ⟨-, rfl⟩ := h.lookup_eq_some hl
    obtain ⟨b, hb, hba⟩ := List.mem_map.mp ha
    exact Option.some.inj hba ▸ (List.mem_filter.mp hb).1

/-- The removal of a party that is not a contact changes nothing. -/
theorem Agrees.removeLinkImpl {contacts : Contacts A κ} {book : Book A}
    (h : Agrees type this contacts book) {a : A} (ha : a ∉ book) :
    ∃ contacts', removeLinkImpl type contacts (some a) = .ok contacts' ∧
      Agrees type this contacts' (book.remove (some a)) := by
  have hr : book.remove (some a) = book :=
    List.filter_eq_self.mpr fun b hb => decide_eq_true fun he => ha (he ▸ hb)
  rw [hr]
  simp only [SupervisorAbstract.removeLinkImpl, Address.type]
  cases hl : contacts.lookup (type a) with
  | none => exact ⟨contacts, rfl, h⟩
  | some l =>
    have hm : some a ∉ l := fun hm => ha (h.mem_book.mpr ⟨l, hl, hm⟩)
    simp only [eraseLoop_of_notMem hm]
    refine ⟨_, rfl, fun k => ?_, h.notThis⟩
    by_cases hk : k = type a
    · subst hk
      rw [AList.lookup_insert, ← hl, h.keeps]
    · rw [AList.lookup_insert_ne hk, h.keeps]

/-- `sync` adds the address and then sends. -/
theorem sync_eq (contacts : Contacts A κ) (sender : Address A) (a : A) :
    (SupervisorAbstract.sync type this contacts sender (some a)).map Prod.fst =
      addLinkImpl type this contacts (some a) := by
  unfold SupervisorAbstract.sync
  cases addLinkImpl type this contacts (some a) with
  | error e => rfl
  | ok c =>
    cases sender with
    | none => rfl
    | some b =>
      simp only [sendAddLink, linkImp]
      split_ifs <;> rfl

/-- A harmless request is answered, and contacts and book agree afterwards. -/
theorem process_harmless {contacts : Contacts A κ} {book : Book A} {r : Request A κ}
    (h : Agrees type this contacts book) (hr : Harmless type (.running contacts book) r) :
    ∃ contacts', process type this contacts r = .ok contacts' ∧
      Agrees type this contacts' (record this book r) := by
  cases r with
  | addLink sender =>
    obtain ⟨a, rfl⟩ := Option.ne_none_iff_exists'.mp hr
    exact h.addLinkImpl a
  | removeLink sender =>
    obtain ⟨a, rfl, ha⟩ := hr
    refine h.removeLinkImpl fun hm => ?_
    obtain ⟨l, hl, hal⟩ := h.mem_book.mp hm
    exact ha l hl hal
  | sync sender address =>
    obtain ⟨a, rfl⟩ := Option.ne_none_iff_exists'.mp hr
    obtain ⟨contacts', hc, hk⟩ := h.addLinkImpl a
    exact ⟨contacts', by rw [process, sync_eq, hc], hk⟩
  | lookup k => exact ⟨contacts, by rw [process, h.addressBook]; rfl, h⟩

/-- Any other request has no defined outcome. -/
theorem process_not_harmless (this : A) {contacts : Contacts A κ} {book : Book A} {r : Request A κ}
    (hr : ¬ Harmless type (.running contacts book) r) :
    ∃ e, process type this contacts r = .error e := by
  cases r with
  | addLink sender =>
    obtain rfl : sender = none := not_not.mp hr
    exact ⟨_, rfl⟩
  | removeLink sender =>
    cases sender with
    | none => exact ⟨_, rfl⟩
    | some a =>
      obtain ⟨l, hl, hm⟩ : ∃ l, contacts.lookup (type a) = some l ∧ some a ∈ l := by
        by_contra hne
        exact hr ⟨a, rfl, fun l hl hm => hne ⟨l, hl, hm⟩⟩
      refine ⟨.erasedIterator, ?_⟩
      simp only [process, SupervisorAbstract.removeLinkImpl, Address.type, hl, eraseLoop_of_mem hm]
      rfl
  | sync sender address =>
    obtain rfl : address = none := not_not.mp hr
    exact ⟨_, rfl⟩
  | lookup k => exact absurd trivial hr

/-- What a state of a run says about its steps: they were all harmless exactly if the state
is not `undefined`, and then the contacts agree with the book. -/
def Explains (type : A → κ) (this : A) (harmless : Prop) : Desk A κ → Prop
  | .undefined => ¬ harmless
  | .running contacts book => harmless ∧ Agrees type this contacts book

theorem run_explains {tr : List (Desk A κ × Request A κ)} {s : Desk A κ}
    (h : (system type this).Run tr s) :
    Explains type this (System.Meets (Harmless type) tr) s := by
  induction h with
  | init h₀ =>
    rw [show _ = Desk.running ∅ [] from h₀]
    exact ⟨System.meets_nil _, keeps_empty, by simp⟩
  | @step tr s s' r _ hs ih =>
    cases s with
    | undefined =>
      cases hs
      exact fun hm => ih (System.meets_concat.mp hm).1
    | running contacts book =>
      obtain ⟨hm, ha⟩ := ih
      by_cases hr : Harmless type (.running contacts book) r
      · obtain ⟨contacts', hc, hk⟩ := process_harmless ha hr
        simp only [system, hc] at hs
        cases hs
        exact ⟨System.meets_concat.mpr ⟨hm, hr⟩, hk⟩
      · obtain ⟨e, he⟩ := process_not_harmless this hr
        simp only [system, he] at hs
        cases hs
        exact fun hm' => hr (System.meets_concat.mp hm').2

/-- **The contact book is in order exactly after runs of harmless requests**: no contact
was ever removed, and no link added, removed or synchronised without an address. -/
theorem contactBook_iff {tr : List (Desk A κ × Request A κ)} {s : Desk A κ}
    (h : (system type this).Run tr s) :
    InOrder type this s ↔ System.Meets (Harmless type) tr := by
  have he := run_explains h
  cases s with
  | undefined => exact iff_of_false id he
  | running contacts book => exact iff_of_true he.2.inOrder he.1

/-- Three parties of two types are added, looked up and in part not removed: all is in order. -/
theorem contactBook_iff_adds :
    InOrder (A := ℕ) (fun a => decide (a < 2)) 0
        (.running (((∅ : Contacts ℕ Bool).insert true [some 1]).insert false [some 3, some 2])
          [1, 3, 2]) ↔
      System.Meets (Harmless (A := ℕ) fun a => decide (a < 2))
        [(.running ∅ [], .addLink (some 1)),
          (.running ((∅ : Contacts ℕ Bool).insert true [some 1]) [1], .sync none (some 3)),
          (.running (((∅ : Contacts ℕ Bool).insert true [some 1]).insert false [some 3]) [1, 3],
            .addLink (some 2))] :=
  contactBook_iff (.step (.step (.step (.init rfl) rfl) rfl) rfl)

/-- A contact is added and removed: the removal has no defined outcome. -/
theorem remove_link_undefined :
    ∃ (tr : List (Desk ℕ String × Request ℕ String)) (s : Desk ℕ String),
      (system (fun _ => "worker") 0).Run tr s ∧
      tr.map Prod.snd = [.addLink (some 1), .removeLink (some 1)] ∧
      ¬ InOrder (fun _ => "worker") 0 s :=
  ⟨_, .undefined, .step (.step (.init rfl) rfl) rfl, rfl, id⟩

end Desk

end ActorsFramework.Supervisor
