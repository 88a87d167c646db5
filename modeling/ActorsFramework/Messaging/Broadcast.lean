import ActorsFramework.Messaging.Delegate
import ActorsFramework.Supervisor.ContactBook

/-!
# Broadcasts, and messages for nobody

`supervisor_abstract::broadcast` goes through the lists of `contacts_`, or through
the list of one type name, and enqueues a clone of the message to each address.
`add_link_impl` does not look whether an address is already there, so a party that
was linked twice is enqueued to twice: `broadcast_iff` says after which requests
every linked party gets exactly one clone.

Neither the second form of `broadcast` nor `redirect` expects a name without a
contact. `routing_miss` says what they do then.
-/

namespace ActorsFramework.Messaging

open Lib Supervisor

universe u v

variable {A κ : Type*} {B : Type u} {El : B → Type v} [DecidableEq A] [DecidableEq κ]

/-- What stops a supervisor in `broadcast`. -/
inductive BroadcastFault where
  /-- A message is enqueued through an empty address. -/
  | nullAddress
  /-- `end()` of the contacts is dereferenced. -/
  | endIterator
  deriving DecidableEq

/-- The messages that are enqueued, each with its target, in order. -/
abbrev Sent (A κ : Type*) {B : Type u} (El : B → Type v) := List (A × Message A κ El)

/-- The loop of `broadcast` over one list: a clone is enqueued to each address. -/
def enqueueClones (tmp : Message A κ El) : List (Address A) → Except BroadcastFault (Sent A κ El)
  | [] => .ok []
  | none :: _ => .error .nullAddress
  | some a :: l => (enqueueClones tmp l).map ((a, tmp.clone) :: ·)

/-- The loop of `broadcast` over the map. -/
def broadcastLoop (tmp : Message A κ El) :
    List (Σ _ : κ, List (Address A)) → Except BroadcastFault (Sent A κ El)
  | [] => .ok []
  | i :: entries =>
    match enqueueClones tmp i.2 with
    | .error e => .error e
    | .ok sent => (broadcastLoop tmp entries).map (sent ++ ·)

/-- `broadcast(msg)`; the order of the map's entries is any. Nobody is linked while the loop runs: it
goes through `contacts_` as it was at the call. -/
def broadcast (contacts : SupervisorAbstract.Contacts A κ) (msg : Message A κ El) :
    Except BroadcastFault (Sent A κ El) :=
  broadcastLoop msg contacts.entries

/-- `broadcast(type, msg)`, with no new links either: the iterator that `find` returns is
dereferenced. -/
def broadcastType (contacts : SupervisorAbstract.Contacts A κ) (type : κ) (msg : Message A κ El) :
    Except BroadcastFault (Sent A κ El) :=
  match contacts.lookup type with
  | none => .error .endIterator
  | some range => enqueueClones msg range

/-- The messages that are enqueued to one party. -/
def received (sent : Sent A κ El) (a : A) : List (Message A κ El) :=
  (sent.filter (·.1 = a)).map Prod.snd

/-- Each of these parties gets one message, with the sender, command and body of `msg`, and
the others get none. -/
def ReachesOnce (P : A → Prop) (msg : Message A κ El)
    (outcome : Except BroadcastFault (Sent A κ El)) : Prop :=
  ∃ sent, outcome = .ok sent ∧ ∀ a,
    (P a → ∃ m, received sent a = [m] ∧ m.sender = msg.sender ∧ m.command = msg.command ∧ m.body = msg.body) ∧
    (¬ P a → received sent a = [])

/-! ### Who is enqueued to how often -/

omit [DecidableEq A] [DecidableEq κ] in
theorem enqueueClones_eq (tmp : Message A κ El) (l : List A) :
    enqueueClones tmp (l.map some) = .ok (l.map fun a => (a, tmp.clone)) := by
  induction l with
  | nil => rfl
  | cons a l ih => rw [List.map_cons, enqueueClones, ih]; rfl

omit [DecidableEq A] [DecidableEq κ] in
/-- The loop over a map whose lists hold addresses of parties. -/
theorem broadcastLoop_eq (tmp : Message A κ El) (parties : κ → List A)
    {entries : List (Σ _ : κ, List (Address A))} (h : ∀ e ∈ entries, e.2 = (parties e.1).map some) :
    broadcastLoop tmp entries =
      .ok (((entries.map Sigma.fst).flatMap parties).map fun a => (a, tmp.clone)) := by
  induction entries with
  | nil => rfl
  | cons e entries ih =>
    rw [broadcastLoop, h e List.mem_cons_self, enqueueClones_eq]
    dsimp only
    rw [ih fun e he => h e (List.mem_cons_of_mem _ he), List.map_cons, List.flatMap_cons, List.map_append]
    rfl

omit [DecidableEq κ] in
/-- A party is sent as many clones as it is among the targets. -/
theorem received_clones (targets : List A) (msg : Message A κ El) (a : A) :
    received (targets.map fun b => (b, msg.clone)) a = List.replicate (targets.count a) msg.clone := by
  rw [received, List.filter_map, List.map_map]
  show (targets.filter (· = a)).map (fun _ => msg.clone) = _
  rw [List.filter_eq, List.map_replicate]

omit [DecidableEq κ] in
/-- Exactly one clone to each party of `P` is what targets without repetitions are sent, where
they are these parties. -/
theorem reachesOnce_iff {targets : List A} {P : A → Prop} (hP : ∀ a, a ∈ targets ↔ P a)
    (msg : Message A κ El) :
    ReachesOnce P msg (.ok (targets.map fun a => (a, msg.clone))) ↔ targets.Nodup := by
  constructor
  · rintro ⟨sent, hs, h⟩
    cases hs
    rw [List.nodup_iff_count_le_one]
    intro a
    by_cases ha : a ∈ targets
    · obtain ⟨m, hm, -⟩ := (h a).1 ((hP a).mp ha)
      rw [received_clones] at hm
      have hlen := congrArg List.length hm
      rw [List.length_replicate] at hlen
      exact hlen.le
    · rw [List.count_eq_zero.mpr ha]
      exact Nat.zero_le 1
  · intro hd
    refine ⟨_, rfl, fun a => ⟨fun ha => ⟨msg.clone, ?_, rfl, rfl, rfl⟩, fun ha => ?_⟩⟩
    · rw [received_clones, List.count_eq_one_of_mem hd ((hP a).mpr ha)]
      rfl
    · rw [received_clones, List.count_eq_zero.mpr (mt (hP a).mp ha)]
      rfl

/-- The parties of all names are as often in their lists as in the book. -/
theorem count_parts (type : A → κ) (book : List A) (a : A) {keys : List κ} (hd : keys.Nodup) :
    (keys.flatMap fun k => book.filter (type · = k)).count a =
      if type a ∈ keys then book.count a else 0 := by
  induction keys with
  | nil => rfl
  | cons k keys ih =>
    obtain ⟨hk, hd⟩ := List.nodup_cons.mp hd
    rw [List.flatMap_cons, List.count_append, ih hd]
    by_cases ha : type a = k
    · subst ha
      have hf := List.count_filter (l := book) (p := (type · = type a)) (decide_eq_true rfl)
      rw [hf, if_neg hk, if_pos List.mem_cons_self, Nat.add_zero]
    · have hn : a ∉ book.filter (type · = k) := fun hm => ha (of_decide_eq_true (List.mem_filter.mp hm).2)
      rw [List.count_eq_zero.mpr hn, Nat.zero_add]
      simp only [List.mem_cons, ha, false_or]

section Agrees

variable {type : A → κ} {this : A} {contacts : SupervisorAbstract.Contacts A κ} {book : Book A}

/-- `broadcast(msg)` enqueues a clone to a party for each time it is in the book. -/
theorem broadcast_eq (h : Desk.Agrees type this contacts book) (msg : Message A κ El) :
    ∃ targets : List A, broadcast contacts msg = .ok (targets.map fun a => (a, msg.clone)) ∧
      targets.Perm book := by
  refine ⟨_, broadcastLoop_eq msg (fun k => book.filter (type · = k)) ?_, ?_⟩
  · rintro ⟨k, l⟩ he
    exact (h.lookup_eq_some (AList.mem_lookup_iff.mpr he)).2
  · refine List.perm_iff_count.mpr fun a => ?_
    have hc := count_parts type book a (show (contacts.entries.map Sigma.fst).Nodup from contacts.nodupKeys)
    rw [hc]
    split_ifs with ha
    · rfl
    · refine (List.count_eq_zero.mpr fun hm => ha ?_).symm
      obtain ⟨l, hl, -⟩ := h.mem_book.mp hm
      exact List.mem_map_of_mem (AList.mem_lookup_iff.mp hl)

omit [DecidableEq A] in
/-- `broadcast(type, msg)` does so for the parties of the type, if there are any. -/
theorem broadcastType_eq (h : Desk.Agrees type this contacts book) (k : κ) (msg : Message A κ El) :
    broadcastType contacts k msg =
      if book.filter (type · = k) = [] then .error .endIterator
      else .ok ((book.filter (type · = k)).map fun a => (a, msg.clone)) := by
  rw [broadcastType, h.keeps k]
  split_ifs with hb
  · rfl
  · exact enqueueClones_eq msg _

end Agrees

/-! ### After any requests -/

/-- The party that a request adds to the contacts. -/
def adds : Request A κ → Address A
  | .addLink sender => sender
  | .sync _ address => address
  | _ => none

/-- No party of `P` is linked that is linked already. -/
def Fresh (this : A) (P : A → Prop) : Desk A κ → Request A κ → Prop
  | .undefined, _ => True
  | .running _ book, r => ∀ a, adds r = some a → P a → a ≠ this → a ∉ book

/-- The party is linked: it was added, and not removed since. -/
def Linked : Desk A κ → A → Prop
  | .undefined, _ => False
  | .running _ book, a => a ∈ book

/-- What is asked of a broadcast with these contacts. -/
def Reaches (call : SupervisorAbstract.Contacts A κ → Except BroadcastFault (Sent A κ El))
    (P : A → Prop) (msg : Message A κ El) : Desk A κ → Prop
  | .undefined => False
  | .running contacts book => ReachesOnce (fun a => a ∈ book ∧ P a) msg (call contacts)

section Run

variable {type : A → κ} {this : A}

/-- A harmless request only adds to the book. -/
theorem record_eq {contacts : SupervisorAbstract.Contacts A κ} {book : Book A} {r : Request A κ}
    (h : Desk.Agrees type this contacts book) (hr : Desk.Harmless type (.running contacts book) r) :
    Desk.record this book r = book.add this (adds r) := by
  cases r with
  | addLink sender => rfl
  | sync sender address => rfl
  | lookup k => rfl
  | removeLink sender =>
    obtain ⟨b, rfl, hb⟩ := hr
    refine List.filter_eq_self.mpr fun a ha => decide_eq_true ?_
    rintro rfl
    obtain ⟨l, hl, hm⟩ := h.mem_book.mp ha
    exact hb l hl hm

omit [DecidableEq κ] in
/-- One more party is in the book: no repetition arises exactly if it was not there. -/
theorem nodup_add (P : A → Prop) [DecidablePred P] (book : Book A) (address : Address A) :
    ((book.add this address).filter P).Nodup ↔
      (book.filter P).Nodup ∧ ∀ a, address = some a → P a → a ≠ this → a ∉ book := by
  cases address with
  | none => exact (and_iff_left nofun).symm
  | some a =>
    simp only [Book.add, Option.some.injEq, forall_eq']
    by_cases ha : a = this
    · rw [if_pos ha, and_iff_left fun _ hne => absurd ha hne]
    rw [if_neg ha, List.filter_append]
    by_cases hP : P a
    · have hf : [a].filter (fun b => decide (P b)) = [a] := List.filter_cons_of_pos (decide_eq_true hP)
      rw [hf, List.nodup_append_comm, List.singleton_append, List.nodup_cons, List.mem_filter]
      simp only [hP, ha, decide_true, and_true, ne_eq, not_false_eq_true, forall_const]
      exact and_comm
    · have hf : [a].filter (fun b => decide (P b)) = [] := List.filter_cons_of_neg (by simpa using hP)
      rw [hf, List.append_nil, and_iff_left fun h => absurd h hP]

/-- The parties of `P` are in the book once each exactly if none of them was linked twice. -/
theorem nodup_iff (P : A → Prop) [DecidablePred P] {tr : List (Desk A κ × Request A κ)}
    {contacts : SupervisorAbstract.Contacts A κ} {book : Book A}
    (h : (Desk.system type this).Run tr (.running contacts book)) :
    (book.filter P).Nodup ↔ System.Meets (Fresh this P) tr := by
  generalize hs : Desk.running contacts book = s at h
  induction h generalizing contacts book with
  | init h₀ =>
    rw [show _ = Desk.running ∅ [] from h₀] at hs
    cases hs
    exact iff_of_true List.nodup_nil (System.meets_nil _)
  | @step tr s s' r hr hs' ih =>
    subst hs
    cases s with
    | undefined => cases hs'
    | running contacts₀ book₀ =>
      obtain ⟨-, ha⟩ := Desk.run_explains hr
      have hhr : Desk.Harmless type (.running contacts₀ book₀) r := by
        by_contra hn
        obtain ⟨e, he⟩ := Desk.process_not_harmless this hn
        simp only [Desk.system, he] at hs'
        cases hs'
      obtain ⟨contacts₁, hc, -⟩ := Desk.process_harmless ha hhr
      simp only [Desk.system, hc, record_eq ha hhr] at hs'
      cases hs'
      rw [System.meets_concat, ← ih rfl]
      exact nodup_add P book₀ (adds r)

/-- **After which requests a broadcast reaches each linked party exactly once**: none of them
removed a contact or lacked an address, and no party was linked that was linked already. For
the parties of one type there must be one of them in addition. -/
theorem broadcast_iff {tr : List (Desk A κ × Request A κ)} {s : Desk A κ}
    (h : (Desk.system type this).Run tr s) (msg : Message A κ El) :
    (Reaches (broadcast · msg) (fun _ => True) msg s ↔
      System.Meets (Desk.Harmless type) tr ∧ System.Meets (Fresh this fun _ => True) tr) ∧
    ∀ k, Reaches (broadcastType · k msg) (type · = k) msg s ↔
      System.Meets (Desk.Harmless type) tr ∧ System.Meets (Fresh this (type · = k)) tr ∧
        ∃ a, Linked s a ∧ type a = k := by
  have he := Desk.run_explains h
  cases s with
  | undefined => exact ⟨iff_of_false id fun hm => he hm.1, fun k => iff_of_false id fun hm => he hm.1⟩
  | running contacts book =>
    obtain ⟨hm, ha⟩ := he
    refine ⟨?_, fun k => ?_⟩
    · obtain ⟨targets, hb, hp⟩ := broadcast_eq ha msg
      have hn := nodup_iff (fun _ => True) h
      rw [show book.filter (fun _ => True) = book by simp] at hn
      rw [and_iff_right hm, ← hn, ← hp.nodup_iff]
      show ReachesOnce _ msg (broadcast contacts msg) ↔ _
      rw [hb]
      exact reachesOnce_iff (fun a => by rw [hp.mem_iff, and_iff_left trivial]) msg
    · rw [and_iff_right hm, ← nodup_iff (type · = k) h]
      show ReachesOnce _ msg (broadcastType contacts k msg) ↔ _
      rw [broadcastType_eq ha k msg]
      split_ifs with hb
      · refine iff_of_false ?_ ?_
        · rintro ⟨sent, hs, -⟩
          cases hs
        · rintro ⟨-, a, hl, hk⟩
          exact List.ne_nil_of_mem (List.mem_filter.mpr ⟨hl, decide_eq_true hk⟩) hb
      · obtain ⟨a, hl⟩ := List.exists_mem_of_ne_nil _ hb
        obtain ⟨hl, hk⟩ := List.mem_filter.mp hl
        rw [and_iff_left ⟨a, hl, of_decide_eq_true hk⟩]
        exact reachesOnce_iff (fun a => by rw [List.mem_filter, decide_eq_true_eq]) msg

end Run

/-- A party's type name: `1` is the only master. -/
def exampleType (a : ℕ) : String := if a = 1 then "master" else "worker"

/-- A message to everybody. -/
def stopMessage : Message ℕ String fun _ : Unit => ℕ := ⟨some 0, "stop", .noValue⟩

/-- Three parties of two types are linked once each. -/
theorem broadcast_iff_once :
    (Reaches (broadcast · stopMessage) (fun _ => True) stopMessage
        (.running (((∅ : SupervisorAbstract.Contacts ℕ String).insert "master" [some 1]).insert "worker"
          [some 3, some 2]) [1, 3, 2]) ↔
      System.Meets (Desk.Harmless exampleType)
        [(.running ∅ [], .addLink (some 1)),
          (.running ((∅ : SupervisorAbstract.Contacts ℕ String).insert "master" [some 1]) [1],
            .sync none (some 3)),
          (.running (((∅ : SupervisorAbstract.Contacts ℕ String).insert "master" [some 1]).insert "worker"
            [some 3]) [1, 3], .addLink (some 2))] ∧
      System.Meets (Fresh 0 fun _ => True)
        [(.running ∅ [], .addLink (some 1)),
          (.running ((∅ : SupervisorAbstract.Contacts ℕ String).insert "master" [some 1]) [1],
            .sync none (some 3)),
          (.running (((∅ : SupervisorAbstract.Contacts ℕ String).insert "master" [some 1]).insert "worker"
            [some 3]) [1, 3], .addLink (some 2))]) :=
  (broadcast_iff (.step (.step (.step (.init rfl) rfl) rfl) rfl) stopMessage).1

/-- One party is linked twice: it gets the message twice. -/
theorem broadcast_twice :
    ∃ (tr : List (Desk ℕ String × Request ℕ String)) (contacts : SupervisorAbstract.Contacts ℕ String)
      (book : Book ℕ) (sent : Sent ℕ String fun _ : Unit => ℕ),
      (Desk.system exampleType 0).Run tr (.running contacts book) ∧
      tr.map Prod.snd = [.addLink (some 1), .addLink (some 1)] ∧
      broadcast contacts stopMessage = .ok sent ∧ received sent 1 = [stopMessage, stopMessage] ∧
      ¬ Reaches (broadcast · stopMessage) (fun _ => True) stopMessage (.running contacts book) := by
  refine ⟨_, _, [1, 1], _, .step (.step (.init rfl) rfl) rfl, rfl, rfl, rfl, ?_⟩
  rintro ⟨sent, hs, h⟩
  cases hs
  obtain ⟨m, hm, -⟩ := (h 1).1 ⟨List.mem_cons_self, trivial⟩
  cases hm

/-! ### A name without a contact -/

section Miss

variable {A B : Type} {El : B → Type} [DecidableEq B] [∀ b, Inhabited (El b)]

/-- No contact is linked under the name: it never was, or its list has become empty. -/
def Unlinked (contacts : SupervisorAbstract.Contacts A String) (name : String) : Prop :=
  contacts.lookup name = none ∨ contacts.lookup name = some []

/-- The supervisor goes on, with the contacts that it had, and nothing was enqueued. -/
def Discards (d : SupervisorState A El) (outcome : Except Fault (SupervisorState A El)) : Prop :=
  ∃ d', outcome = .ok d' ∧ d'.contacts = d.contacts ∧ d'.enqueued = d.enqueued

omit [DecidableEq B] [∀ b, Inhabited (El b)] in
/-- `redirect` uses the empty address, or the first element of the empty list. -/
theorem redirect_miss (this : A) {d : SupervisorState A El} {name : String}
    (h : Unlinked d.contacts name) (msg : ℕ) : ∃ e, redirect this name msg d = .error e := by
  cases hm : d.heap msg with
  | none => exact ⟨_, by rw [redirect, hm]⟩
  | some m =>
    rcases h with h | h
    · exact ⟨.contacts .nullAddress, by simp only [redirect, hm, SupervisorAbstract.addressBook, h]⟩
    · exact ⟨.contacts .emptyList, by simp only [redirect, hm, SupervisorAbstract.addressBook, h]⟩

/-- **A message for a name without a contact is never discarded by `redirect`, and by
`broadcast` exactly if the name still has its list.** -/
theorem routing_miss (type : A → String) (this : A) (more : List (String × Handler (Basic B)))
    (d : SupervisorState A El) (name : String) (h : Unlinked d.contacts name) (inner : ℕ) (msg : Msg A El) :
    ¬ Discards d (processDelegate type this more (delegateSend this name inner) d) ∧
      (broadcastType d.contacts name msg = .ok [] ↔ d.contacts.lookup name = some []) := by
  constructor
  · rintro ⟨d', hd, -⟩
    obtain ⟨e, he⟩ := redirect_miss this h inner
    rw [processDelegate, execute_delegateSend] at hd
    simp only [List.foldlM_cons, delegateCall_eq, he] at hd
    cases hd
  · rw [broadcastType]
    rcases h with h | h
    · rw [h]
      constructor
      · intro he
        cases he
      · intro he
        cases he
    · rw [h]
      exact iff_of_true rfl rfl

/-- The message that is to be passed on. -/
def goMessage : Msg ℕ fun _ : Unit => ℕ := delegated "go" .nil

/-- A supervisor with the worker `1` as its only contact, and the message at `5`. -/
def missState : SupervisorState ℕ fun _ : Unit => ℕ :=
  { exampleState with heap := Function.update exampleState.heap 5 (some goMessage) }

/-- It is to be passed on to a "reader". -/
theorem routing_miss_reader :
    ¬ Discards missState
        (processDelegate (fun _ => "worker") 0 [] (delegateSend 0 "reader" 5) missState) ∧
      (broadcastType missState.contacts "reader" goMessage = .ok [] ↔
        missState.contacts.lookup "reader" = some []) :=
  routing_miss (fun _ => "worker") 0 [] missState "reader" (.inl rfl) 5 goMessage

/-- It is enqueued through an empty address; and a broadcast to readers dereferences the end of
the map. -/
theorem routing_miss_undefined :
    Unlinked missState.contacts "reader" ∧
      processDelegate (fun _ => "worker") 0 [] (delegateSend 0 "reader" 5) missState =
        .error (.contacts .nullAddress) ∧
      broadcastType missState.contacts "reader" goMessage = .error .endIterator :=
  ⟨.inl rfl, rfl, rfl⟩

end Miss

end ActorsFramework.Messaging
