import Mathlib.Data.List.Basic
import ActorsFramework.Lib.Transition
import ActorsFramework.Supervisor.Contacts

/-!
# Links between actors and supervisors

Any number of actors and supervisors, with any type names, that are linked by
`link` and by the `sync` of a spawn. A link is two "add_link" messages, which are
delivered and processed one by one, in any order; a `sync` adds one of the
contacts at once.

Which contacts a party has depends on the order in which it processed the
messages (`processed`): a supervisor keeps everyone, an actor the first of each
type name. So two linked parties are each other's contacts unless one of them is
an actor that was linked with another party of the other's type name:
`contacts_iff` says exactly who is whose contact once all messages are processed,
and when the links are mutual.
-/

namespace ActorsFramework.Supervisor

open Lib

variable {A κ : Type*} [DecidableEq A] [DecidableEq κ]

/-- Which of the two classes a party belongs to. -/
inductive Kind where
  /-- `actor_abstract`. -/
  | actor
  /-- `supervisor_abstract`. -/
  | supervisor
  deriving DecidableEq

/-- The `contacts_` of a party. -/
inductive PartyContacts (A κ : Type*) where
  /-- Those of an actor. -/
  | actor (contacts : ActorAbstract.Contacts A κ)
  /-- Those of a supervisor. -/
  | supervisor (contacts : SupervisorAbstract.Contacts A κ)

namespace PartyContacts

/-- A new party has no contacts. -/
def init : Kind → PartyContacts A κ
  | .actor => .actor ∅
  | .supervisor => .supervisor ∅

/-- The party's `add_link_impl`. -/
def addLinkImpl (type : A → κ) (this : A) (address : Address A) :
    PartyContacts A κ → Except Fault (PartyContacts A κ)
  | .actor c => (ActorAbstract.addLinkImpl type this c address).map .actor
  | .supervisor c => (SupervisorAbstract.addLinkImpl type this c address).map .supervisor

/-- The address is among the contacts. -/
def Has : PartyContacts A κ → A → Prop
  | .actor c, a => ∃ k, c.lookup k = some (some a)
  | .supervisor c, a => ∃ k l, c.lookup k = some l ∧ some a ∈ l

/-- The contacts of a party of this kind that has added the parties of `l`. -/
def Keeps (type : A → κ) (l : List A) : Kind → PartyContacts A κ → Prop
  | .actor, .actor c => ActorAbstract.Keeps type c l
  | .supervisor, .supervisor c => SupervisorAbstract.Keeps type c l
  | _, _ => False

omit [DecidableEq A] in
theorem init_keeps (type : A → κ) (kind : Kind) : Keeps type [] kind (init kind) := by
  cases kind with
  | actor => exact ActorAbstract.keeps_empty
  | supervisor => exact SupervisorAbstract.keeps_empty

theorem addLinkImpl_keeps {type : A → κ} {this a : A} {l : List A} {kind : Kind}
    {c : PartyContacts A κ} (h : Keeps type l kind c) (ha : a ≠ this) :
    ∃ c', c.addLinkImpl type this (some a) = .ok c' ∧ Keeps type (l ++ [a]) kind c' := by
  cases c with
  | actor c =>
    cases kind with
    | supervisor => exact h.elim
    | actor =>
      obtain ⟨c', hc, hk⟩ := ActorAbstract.addLinkImpl_keeps h ha
      exact ⟨.actor c', by rw [addLinkImpl, hc]; rfl, hk⟩
  | supervisor c =>
    cases kind with
    | actor => exact h.elim
    | supervisor =>
      obtain ⟨c', hc, hk⟩ := SupervisorAbstract.addLinkImpl_keeps h ha
      exact ⟨.supervisor c', by rw [addLinkImpl, hc]; rfl, hk⟩

omit [DecidableEq A] in
/-- **Whom a party keeps**: everyone it added if it is a supervisor, else the first it added
of each type. -/
theorem Keeps.has_iff {type : A → κ} {l : List A} {kind : Kind} {c : PartyContacts A κ}
    (h : Keeps type l kind c) (a : A) :
    c.Has a ↔ a ∈ l ∧ (kind = .supervisor ∨ l.find? (type · = type a) = some a) := by
  cases c with
  | actor c =>
    cases kind with
    | supervisor => exact h.elim
    | actor =>
      constructor
      · rintro ⟨k, hk⟩
        rw [h k] at hk
        obtain ⟨b, hb, hba⟩ := Option.map_eq_some_iff.mp hk
        obtain rfl := Option.some.inj hba
        have htype : type b = k := of_decide_eq_true (List.find?_some hb :)
        exact ⟨List.mem_of_find?_eq_some hb, .inr (htype ▸ hb)⟩
      · rintro ⟨-, hk | hf⟩
        · cases hk
        · exact ⟨type a, by rw [h, hf]; rfl⟩
  | supervisor c =>
    cases kind with
    | actor => exact h.elim
    | supervisor =>
      constructor
      · rintro ⟨k, m, hk, hm⟩
        rw [h k] at hk
        split_ifs at hk with he
        obtain rfl := Option.some.inj hk
        obtain ⟨b, hb, hba⟩ := List.mem_map.mp hm
        exact ⟨Option.some.inj hba ▸ (List.mem_filter.mp hb).1, .inl rfl⟩
      · rintro ⟨ha, -⟩
        have hm : a ∈ l.filter (type · = type a) := List.mem_filter.mpr ⟨ha, decide_eq_true rfl⟩
        exact ⟨type a, _, by rw [h, if_neg (List.ne_nil_of_mem hm)], List.mem_map_of_mem hm⟩

end PartyContacts

/-- The parties, and the messages between them. -/
structure Links (A κ : Type*) where
  /-- The contacts of each party. -/
  contacts : A → PartyContacts A κ
  /-- The "add_link" messages that have not been processed. -/
  inFlight : List (AddLink A)
  /-- Whom each party was to add, in the order in which it came to that. -/
  processed : A → List A
  /-- Which parties have been linked, by `link` or by `sync`. -/
  linked : List (A × A)

namespace Links

/-- What links parties, and what processes a message. -/
inductive Action (A : Type*) where
  /-- `link(x, y)`. -/
  | link (x y : A)
  /-- `sync` by the supervisor `s` of the party `p` it has spawned, while it processes a message
  from `sender`, which is still the sender of its current message. -/
  | sync (s p : A) (sender : Address A)
  /-- The message is processed by its target. -/
  | process (m : AddLink A)
  deriving DecidableEq

variable (kind : A → Kind) (type : A → κ)

/-- `link(x, y)`. -/
def link (s : Links A κ) (x y : A) : Option (Links A κ) :=
  match linkImp (some x) (some y) with
  | .error _ => none
  | .ok ms => some { s with inFlight := s.inFlight ++ ms, linked := (x, y) :: s.linked }

/-- The pairs that a `sync` links. -/
def syncPairs (this p : A) (sender : Address A) : List (A × A) :=
  match sender with
  | none => [(this, p)]
  | some a => if a = this then [(this, p)] else [(a, p), (this, p)]

/-- `sync`, which only a supervisor has. -/
def sync (s : Links A κ) (this p : A) (sender : Address A) : Option (Links A κ) :=
  match s.contacts this with
  | .actor _ => none
  | .supervisor c =>
    match SupervisorAbstract.sync type this c sender (some p) with
    | .error _ => none
    | .ok (c, ms) =>
      some ⟨Function.update s.contacts this (.supervisor c), s.inFlight ++ ms,
        Function.update s.processed this (s.processed this ++ [p]),
        syncPairs this p sender ++ s.linked⟩

/-- A message is processed: `add_link` by its target. -/
def process (s : Links A κ) (m : AddLink A) : Option (Links A κ) :=
  match (s.contacts m.target).addLinkImpl type m.target m.sender with
  | .error _ => none
  | .ok c =>
    some ⟨Function.update s.contacts m.target c, s.inFlight.erase m,
      Function.update s.processed m.target (s.processed m.target ++ m.sender.toList), s.linked⟩

/-- Parties are linked and messages processed, in any order. -/
def system : System (Links A κ) (Action A) where
  Init s := s = ⟨fun a => .init (kind a), [], fun _ => [], []⟩
  step s
    | .link x y => if x ≠ y then s.link x y else none
    | .sync this p sender => if this ≠ p ∧ sender ≠ some p then s.sync type this p sender else none
    | .process m => if m ∈ s.inFlight then s.process type m else none

/-- The two parties have been linked. -/
def Linked (s : Links A κ) (x y : A) : Prop := (x, y) ∈ s.linked ∨ (y, x) ∈ s.linked

/-- No other party of the type of `y` has been linked with `x`. -/
def Unrivalled (s : Links A κ) (x y : A) : Prop := ∀ z, s.Linked x z → type z = type y → z = y

/-- `y` is, or is to become, one of those `x` added. -/
def Told (s : Links A κ) (x y : A) : Prop := y ∈ s.processed x ∨ ⟨x, some y⟩ ∈ s.inFlight

/-- The invariant: each party keeps what it has added, who is linked with it has been added
or is in a message on its way, and no one else. -/
structure Inv (s : Links A κ) : Prop where
  keeps : ∀ x, PartyContacts.Keeps type (s.processed x) (kind x) (s.contacts x)
  told : ∀ x y, s.Told x y ↔ s.Linked x y
  sender : ∀ m ∈ s.inFlight, ∃ y, m.sender = some y ∧ y ≠ m.target

variable {kind type}

omit [DecidableEq A] [DecidableEq κ] in
theorem Linked.symm {s : Links A κ} {x y : A} (h : s.Linked x y) : s.Linked y x := Or.symm h

omit [DecidableEq A] [DecidableEq κ] in
theorem linkImp_some (x y : A) :
    linkImp (some x) (some y) = .ok [⟨x, some y⟩, ⟨y, some x⟩] := rfl

/-- The messages that a `sync` sends. -/
def syncMessages (this p : A) (sender : Address A) : List (AddLink A) :=
  ⟨p, some this⟩ ::
    match sender with
    | none => []
    | some a => if a = this then [] else [⟨a, some p⟩, ⟨p, some a⟩]

/-- `sync` by a supervisor adds the party and sends its messages. -/
theorem sync_some {this p : A} {c : SupervisorAbstract.Contacts A κ} {l : List A}
    (hk : SupervisorAbstract.Keeps type c l) (hp : p ≠ this) (sender : Address A) :
    ∃ c', SupervisorAbstract.Keeps type c' (l ++ [p]) ∧
      SupervisorAbstract.sync type this c sender (some p) = .ok (c', syncMessages this p sender) := by
  obtain ⟨c', hc, hk'⟩ := SupervisorAbstract.addLinkImpl_keeps hk hp
  refine ⟨c', hk', ?_⟩
  cases sender with
  | none => simp [SupervisorAbstract.sync, hc, sendAddLink, syncMessages]
  | some a =>
    by_cases ha : a = this
    · subst ha
      simp [SupervisorAbstract.sync, hc, sendAddLink, syncMessages]
    · simp [SupervisorAbstract.sync, hc, sendAddLink, linkImp_some, ha, syncMessages]

omit [DecidableEq A] in
theorem inv_init : Inv kind type (⟨fun a => .init (kind a), [], fun _ => [], []⟩ : Links A κ) where
  keeps x := PartyContacts.init_keeps type (kind x)
  told x y := by simp [Told, Linked]
  sender m hm := by cases hm

theorem inv_link {s s' : Links A κ} {x y : A} (h : Inv kind type s) (hxy : x ≠ y)
    (hs : s.link x y = some s') : Inv kind type s' := by
  rw [link, linkImp_some] at hs
  cases hs
  refine ⟨h.keeps, fun u v => ?_, fun m hm => ?_⟩
  · have hold := h.told u v
    simp only [Told, Linked, List.mem_append, List.mem_cons, AddLink.mk.injEq, Prod.mk.injEq,
      Option.some.injEq, List.not_mem_nil, or_false] at hold ⊢
    rw [← or_assoc, hold]
    tauto
  · rcases List.mem_append.mp hm with hm | hm
    · exact h.sender m hm
    · rcases List.mem_cons.mp hm with rfl | hm
      · exact ⟨y, rfl, hxy.symm⟩
      · rw [List.mem_singleton.mp hm]
        exact ⟨x, rfl, hxy⟩

theorem mem_syncPairs {this p u v : A} {sender : Address A} :
    (u, v) ∈ syncPairs this p sender ↔
      v = p ∧ (u = this ∨ sender = some u ∧ u ≠ this) := by
  cases sender with
  | none => simp [syncPairs, and_comm]
  | some a =>
    by_cases ha : a = this
    · subst ha
      simp only [syncPairs, if_pos, List.mem_singleton, Prod.mk.injEq, Option.some.injEq]
      tauto
    · simp only [syncPairs, if_neg ha, List.mem_cons, Prod.mk.injEq, List.not_mem_nil, or_false,
        Option.some.injEq]
      constructor
      · rintro (⟨rfl, rfl⟩ | ⟨rfl, rfl⟩)
        · exact ⟨rfl, .inr ⟨rfl, ha⟩⟩
        · exact ⟨rfl, .inl rfl⟩
      · rintro ⟨rfl, rfl | ⟨rfl, -⟩⟩
        · exact .inr ⟨rfl, rfl⟩
        · exact .inl ⟨rfl, rfl⟩

/-- The messages of a `sync` go both ways between the parties it links, but for the one to
the supervisor, which has added the party already. -/
theorem mem_syncMessages {this p u v : A} {sender : Address A} :
    ⟨u, some v⟩ ∈ syncMessages this p sender ∨ (u = this ∧ v = p) ↔
      (u, v) ∈ syncPairs this p sender ∨ (v, u) ∈ syncPairs this p sender := by
  rw [mem_syncPairs, mem_syncPairs]
  cases sender with
  | none => simp [syncMessages]; tauto
  | some a =>
    by_cases ha : a = this
    · subst ha
      simp [syncMessages]
      tauto
    · simp only [syncMessages, if_neg ha, List.mem_cons, AddLink.mk.injEq, Option.some.injEq,
        List.not_mem_nil, or_false]
      constructor
      · rintro ((⟨rfl, rfl⟩ | ⟨rfl, rfl⟩ | ⟨rfl, rfl⟩) | ⟨rfl, rfl⟩)
        · exact .inr ⟨rfl, .inl rfl⟩
        · exact .inl ⟨rfl, .inr ⟨rfl, ha⟩⟩
        · exact .inr ⟨rfl, .inr ⟨rfl, ha⟩⟩
        · exact .inl ⟨rfl, .inl rfl⟩
      · rintro (⟨rfl, rfl | ⟨rfl, -⟩⟩ | ⟨rfl, rfl | ⟨rfl, -⟩⟩)
        · exact .inr ⟨rfl, rfl⟩
        · exact .inl (.inr (.inl ⟨rfl, rfl⟩))
        · exact .inl (.inl ⟨rfl, rfl⟩)
        · exact .inl (.inr (.inr ⟨rfl, rfl⟩))

omit [DecidableEq κ] in
/-- Whom a party has added or will add, after one more addition and more messages. -/
theorem told_append {s : Links A κ} {c : A → PartyContacts A κ} {this p u v : A}
    {ms : List (AddLink A)} {l : List (A × A)} :
    Told ⟨c, s.inFlight ++ ms, Function.update s.processed this (s.processed this ++ [p]), l⟩ u v ↔
      s.Told u v ∨ (⟨u, some v⟩ ∈ ms ∨ (u = this ∧ v = p)) := by
  have hproc : v ∈ Function.update s.processed this (s.processed this ++ [p]) u ↔
      v ∈ s.processed u ∨ (u = this ∧ v = p) := by
    by_cases hu : u = this
    · subst hu
      simp
    · rw [Function.update_of_ne hu]
      simp [hu]
  show (v ∈ Function.update s.processed this (s.processed this ++ [p]) u ∨
    _ ∈ s.inFlight ++ ms) ↔ _
  rw [hproc, List.mem_append, or_or_or_comm, or_comm (a := (u = this ∧ v = p))]
  rfl

/-- One party adds another. -/
theorem Inv.keeps_update {s : Links A κ} (h : Inv kind type s) {this p : A} {c : PartyContacts A κ}
    (hk : PartyContacts.Keeps type (s.processed this ++ [p]) (kind this) c) (x : A) :
    PartyContacts.Keeps type (Function.update s.processed this (s.processed this ++ [p]) x) (kind x)
      (Function.update s.contacts this c x) := by
  by_cases hx : x = this
  · subst hx
    rw [Function.update_self, Function.update_self]
    exact hk
  · rw [Function.update_of_ne hx, Function.update_of_ne hx]
    exact h.keeps x

theorem inv_sync {s s' : Links A κ} {this p : A} {sender : Address A} (h : Inv kind type s)
    (hp : this ≠ p) (hsend : sender ≠ some p) (hs : s.sync type this p sender = some s') :
    Inv kind type s' := by
  unfold sync at hs
  cases hc : s.contacts this with
  | actor c => rw [hc] at hs; cases hs
  | supervisor c =>
    have hk := h.keeps this
    rw [hc] at hk hs
    cases hkind : kind this with
    | actor => rw [hkind] at hk; exact hk.elim
    | supervisor =>
      rw [hkind] at hk
      obtain ⟨c', hk', he⟩ := sync_some hk hp.symm sender
      simp only [he] at hs
      cases hs
      refine ⟨h.keeps_update ?_, fun u v => ?_, fun m hm => ?_⟩
      · rw [hkind]
        exact hk'
      · rw [told_append, h.told u v]
        show _ ↔ ((u, v) ∈ syncPairs this p sender ++ s.linked ∨
          (v, u) ∈ syncPairs this p sender ++ s.linked)
        rw [List.mem_append, List.mem_append, or_or_or_comm, ← mem_syncMessages]
        exact or_comm
      · rcases List.mem_append.mp hm with hm | hm
        · exact h.sender m hm
        · rcases List.mem_cons.mp hm with rfl | hm
          · exact ⟨this, rfl, hp⟩
          · cases sender with
            | none => cases hm
            | some a =>
              have hap : a ≠ p := fun he => hsend (he ▸ rfl)
              simp only at hm
              split_ifs at hm
              · cases hm
              · rcases List.mem_cons.mp hm with rfl | hm
                · exact ⟨p, rfl, hap.symm⟩
                · rw [List.mem_singleton.mp hm]
                  exact ⟨a, rfl, hap⟩

theorem inv_process {s s' : Links A κ} {m : AddLink A} (h : Inv kind type s)
    (hm : m ∈ s.inFlight) (hs : s.process type m = some s') : Inv kind type s' := by
  obtain ⟨target, sender⟩ := m
  obtain ⟨y, rfl, hy⟩ := h.sender _ hm
  obtain ⟨c', hc, hk⟩ := PartyContacts.addLinkImpl_keeps (h.keeps target) hy
  simp only [process, hc, Option.toList_some] at hs
  cases hs
  refine ⟨h.keeps_update hk, fun u v => ?_, fun m' hm' => h.sender m' (List.mem_of_mem_erase hm')⟩
  apply Iff.trans _ (h.told u v)
  simp only [Told]
  by_cases hu : u = target
  · subst hu
    rw [Function.update_self, List.mem_append, List.mem_singleton]
    by_cases hv : v = y
    · subst hv
      exact iff_of_true (.inl (.inr rfl)) (.inr hm)
    · have hne : (⟨u, some v⟩ : AddLink A) ≠ ⟨u, some y⟩ := fun he => hv (by cases he; rfl)
      rw [List.mem_erase_of_ne hne]
      simp only [hv, or_false]
  · have hne : (⟨u, some v⟩ : AddLink A) ≠ ⟨target, some y⟩ := fun he => hu (by cases he; rfl)
    rw [Function.update_of_ne hu, List.mem_erase_of_ne hne]

theorem reachable_inv {s : Links A κ} (h : (system kind type).Reachable s) : Inv kind type s := by
  refine System.Reachable.invariant (I := Inv kind type) ?_ ?_ h
  · rintro s rfl
    exact inv_init
  · intro s a s' hI hs
    cases a with
    | link x y =>
      simp only [system] at hs
      split_ifs at hs with hxy
      exact inv_link hI hxy hs
    | sync this p sender =>
      simp only [system] at hs
      split_ifs at hs with hp
      exact inv_sync hI hp.1 hp.2 hs
    | process m =>
      simp only [system] at hs
      split_ifs at hs with hm
      exact inv_process hI hm hs

/-- Every message on its way can be processed. -/
theorem process_possible {s : Links A κ} (h : (system kind type).Reachable s) {m : AddLink A}
    (hm : m ∈ s.inFlight) : ∃ s', (system kind type).step s (.process m) = some s' := by
  have hI := reachable_inv h
  obtain ⟨target, sender⟩ := m
  obtain ⟨y, rfl, hy⟩ := hI.sender _ hm
  obtain ⟨c', hc, -⟩ := PartyContacts.addLinkImpl_keeps (hI.keeps target) hy
  exact ⟨_, by simp only [system, if_pos hm, process, hc]; rfl⟩

omit [DecidableEq A] in
/-- Once all messages are processed, a party has added those it is linked with. -/
theorem Inv.mem_processed {s : Links A κ} (h : Inv kind type s) (hq : s.inFlight = []) (x y : A) :
    y ∈ s.processed x ↔ s.Linked x y := by
  rw [← h.told, Told, hq]
  simp

omit [DecidableEq A] in
/-- Where no other party of the type of `y` was linked with `x`, `y` is the first of its type
that `x` added. -/
theorem Inv.find_processed {s : Links A κ} (h : Inv kind type s) (hq : s.inFlight = []) {x y : A}
    (hxy : s.Linked x y) (hu : s.Unrivalled type x y) :
    (s.processed x).find? (type · = type y) = some y := by
  have hy := (h.mem_processed hq x y).mpr hxy
  cases hf : (s.processed x).find? (type · = type y) with
  | none => exact absurd (decide_eq_true rfl) (List.find?_eq_none.mp hf y hy)
  | some z =>
    have htype : type z = type y := of_decide_eq_true (List.find?_some hf :)
    exact congrArg some (hu z ((h.mem_processed hq x z).mp (List.mem_of_find?_eq_some hf)) htype)

/-- **Who is whose contact once all messages are processed**: `y` is a contact of `x` exactly
if the two were linked and `x` is a supervisor, or `y` the first party of its type that `x`
was told of. So the links of two parties are mutual unless one of them is an actor that was
linked with another party of the other's type. -/
theorem contacts_iff {s : Links A κ} (h : (system kind type).Reachable s) (hq : s.inFlight = [])
    (x y : A) :
    ((s.contacts x).Has y ↔ s.Linked x y ∧
      (kind x = .supervisor ∨ (s.processed x).find? (type · = type y) = some y)) ∧
    ((kind x = .actor → s.Unrivalled type x y) → (kind y = .actor → s.Unrivalled type y x) →
      ((s.contacts x).Has y ↔ (s.contacts y).Has x)) := by
  have hI := reachable_inv h
  have hhas : ∀ u v, (s.contacts u).Has v ↔ s.Linked u v ∧
      (kind u = .supervisor ∨ (s.processed u).find? (type · = type v) = some v) := by
    intro u v
    rw [(hI.keeps u).has_iff v, hI.mem_processed hq]
  -- with no rival, whoever is linked is kept
  have hkeep : ∀ u v, (kind u = .actor → s.Unrivalled type u v) →
      ((s.contacts u).Has v ↔ s.Linked u v) := by
    intro u v hu
    rw [hhas]
    refine and_iff_left_of_imp fun huv => ?_
    cases hk : kind u with
    | supervisor => exact .inl rfl
    | actor => exact .inr (hI.find_processed hq huv (hu hk))
  refine ⟨hhas x y, fun hx hy => ?_⟩
  rw [hkeep x y hx, hkeep y x hy]
  exact Or.comm

/-- The actor `0`, and supervisors `1`, `2` and `3`. -/
def exampleKind (a : ℕ) : Kind := if a = 0 then .actor else .supervisor

/-- Their type names: `1` and `2` have the same. -/
def exampleType (a : ℕ) : String := if a = 0 then "storage" else if a = 3 then "manager" else "worker"

/-- The actor is linked with two supervisors of different types, the messages are processed
in an order of their own: these links are mutual. -/
theorem contacts_iff_two :
    ∃ s, (system exampleKind exampleType).Reachable s ∧ s.inFlight = [] ∧
      ((s.contacts 0).Has 3 ↔ (s.contacts 3).Has 0) := by
  have hr : ∃ s, (system exampleKind exampleType).Reachable s ∧ s.inFlight = [] ∧
      s.linked = [(3, 0), (0, 1)] :=
    ⟨_, System.Reachable.of_actions rfl [.link 0 1, .sync 3 0 none, .process ⟨1, some 0⟩,
      .process ⟨0, some 3⟩, .process ⟨0, some 1⟩] rfl, rfl, rfl⟩
  obtain ⟨s, hs, hq, hl⟩ := hr
  refine ⟨s, hs, hq, (contacts_iff hs hq 0 3).2 (fun _ z hz ht => ?_) nofun⟩
  rw [Linked, hl] at hz
  have hz' : z = 1 ∨ z = 3 := by simpa using hz
  rcases hz' with rfl | rfl
  · exact absurd ht (by decide)
  · rfl

/-- The actor is linked with two supervisors of one type: it is a contact of the second, and
the second is none of its own. -/
theorem contacts_not_mutual :
    ∃ s, (system exampleKind exampleType).Reachable s ∧ s.inFlight = [] ∧
      (s.contacts 2).Has 0 ∧ ¬ (s.contacts 0).Has 2 := by
  have hr : ∃ s, (system exampleKind exampleType).Reachable s ∧ s.inFlight = [] ∧
      s.processed 2 = [0] ∧ s.processed 0 = [1, 2] :=
    ⟨_, System.Reachable.of_actions rfl [.link 0 1, .link 0 2, .process ⟨0, some 1⟩,
      .process ⟨1, some 0⟩, .process ⟨0, some 2⟩, .process ⟨2, some 0⟩] rfl, rfl, rfl, rfl⟩
  obtain ⟨s, hs, hq, h2, h0⟩ := hr
  have hI := reachable_inv hs
  refine ⟨s, hs, hq, ?_, ?_⟩
  · rw [(hI.keeps 2).has_iff, h2]
    decide
  · rw [(hI.keeps 0).has_iff, h0]
    decide

end Links

end ActorsFramework.Supervisor
