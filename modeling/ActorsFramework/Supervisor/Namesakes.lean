import ActorsFramework.Lib.Transition
import ActorsFramework.Supervisor.Contacts

/-!
# Links of actors with one type name

An actor that processes "add_link" and "remove_link" messages, in any order and from
any senders. A supervisor has a list of contacts for each type name and looks for
the sender of a "remove_link" in it. An actor has one contact for each type name:
the first sender of an "add_link" since the last "remove_link" of that name. A
"remove_link" takes that contact away, whoever sent it.

`remove_link_iff`: the others' links are left alone exactly in the runs in which
each "remove_link" comes from the contact of its name, or there is none.
-/

namespace ActorsFramework.Supervisor

open Lib

variable {A κ : Type*} [DecidableEq A] [DecidableEq κ]

/-- A message about a link, from this sender. -/
inductive LinkMessage (A : Type*) where
  /-- "add_link". -/
  | addLink (sender : Address A)
  /-- "remove_link". -/
  | removeLink (sender : Address A)
  deriving DecidableEq

namespace ActorAbstract

/-- An actor's contacts, and who should be the contact of a type name. -/
structure Links (A κ : Type*) [DecidableEq κ] where
  /-- `contacts_`. -/
  contacts : Contacts A κ := ∅
  /-- The first that was linked under the name since a link of that name was removed. -/
  holder : κ → Address A := fun _ => none

section Process

variable (type : A → κ) (this : A)

/-- The contacts after a message. -/
def process (contacts : Contacts A κ) : LinkMessage A → Except Fault (Contacts A κ)
  | .addLink sender => addLinkImpl type this contacts sender
  | .removeLink sender => removeLinkImpl type contacts sender

/-- Who is the contact of a type name after a message. -/
def hold (holder : κ → Address A) : LinkMessage A → κ → Address A
  | .addLink (some a) =>
    if a = this ∨ (holder (type a)).isSome then holder
    else Function.update holder (type a) (some a)
  | .removeLink (some b) => Function.update holder (type b) none
  | _ => holder

/-- Any messages, until one of them has no sender. -/
def links : System (Links A κ) (LinkMessage A) where
  Init s := s = {}
  step s m :=
    match process type this s.contacts m with
    | .error _ => none
    | .ok contacts => some ⟨contacts, hold type this s.holder m⟩

/-- The party is in `contacts_`. -/
def Has (contacts : Contacts A κ) (a : A) : Prop := ∃ k, contacts.lookup k = some (some a)

/-- A "remove_link" changes nothing about other parties than its sender. -/
def Spares (s : Links A κ) (m : LinkMessage A) : Prop :=
  ∀ b, m = .removeLink (some b) → ∀ a, a ≠ b → ∀ s', (links type this).step s m = some s' →
    (Has s'.contacts a ↔ Has s.contacts a)

/-- A "remove_link" comes from the contact of the sender's type name, or there is none. -/
def Own (s : Links A κ) (m : LinkMessage A) : Prop :=
  ∀ b, m = .removeLink (some b) → s.holder (type b) = none ∨ s.holder (type b) = some b

end Process

/-- The invariant: the contacts are those who should be, each under its own name. -/
structure Held (type : A → κ) (s : Links A κ) : Prop where
  lookup : ∀ k, s.contacts.lookup k = (s.holder k).map some
  typed : ∀ k a, s.holder k = some a → type a = k

variable {type : A → κ} {this : A} {s s' : Links A κ}

omit [DecidableEq A] in
theorem Held.has_iff (h : Held type s) {a : A} : Has s.contacts a ↔ s.holder (type a) = some a := by
  constructor
  · rintro ⟨k, hk⟩
    rw [h.lookup] at hk
    obtain ⟨b, hb, hba⟩ := Option.map_eq_some_iff.mp hk
    obtain rfl := Option.some.inj hba
    rwa [h.typed k b hb]
  · intro ha
    exact ⟨type a, by rw [h.lookup, ha]; rfl⟩

omit [DecidableEq A] in
/-- The contact of one name changes. -/
theorem Held.update (h : Held type s) {k₀ : κ} {v : Address A} (hv : ∀ a, v = some a → type a = k₀)
    {contacts : Contacts A κ} (h₀ : contacts.lookup k₀ = v.map some)
    (hne : ∀ k, k ≠ k₀ → contacts.lookup k = s.contacts.lookup k) :
    Held type ⟨contacts, Function.update s.holder k₀ v⟩ where
  lookup k := by
    dsimp only
    by_cases hk : k = k₀
    · subst hk
      rw [h₀, Function.update_self]
    · rw [hne k hk, Function.update_of_ne hk]
      exact h.lookup k
  typed k a ha := by
    dsimp only at ha
    by_cases hk : k = k₀
    · subst hk
      rw [Function.update_self] at ha
      exact hv a ha
    · rw [Function.update_of_ne hk] at ha
      exact h.typed k a ha

theorem Held.addLink (h : Held type s) {a : A}
    (hs : (links type this).step s (.addLink (some a)) = some s') : Held type s' := by
  simp only [links, process, addLinkImpl, hold] at hs
  rw [h.lookup, Option.isSome_map] at hs
  by_cases ha : a = this
  · rw [if_pos ha, if_pos (.inl ha)] at hs
    cases hs
    exact h
  rw [if_neg ha] at hs
  by_cases hk : (s.holder (type a)).isSome = true
  · rw [if_pos hk, if_pos (.inr hk)] at hs
    cases hs
    exact h
  · rw [if_neg hk, if_neg (not_or.mpr ⟨ha, hk⟩)] at hs
    cases hs
    exact h.update (by rintro _ ⟨⟩; rfl) (AList.lookup_insert _) fun k hk => AList.lookup_insert_ne hk

theorem Held.removeLink (h : Held type s) {b : A}
    (hs : (links type this).step s (.removeLink (some b)) = some s') :
    Held type s' ∧ s'.holder = Function.update s.holder (type b) none := by
  simp only [links, process, removeLinkImpl, Address.type, hold] at hs
  cases hs
  exact ⟨h.update (v := none) nofun (AList.lookup_erase _ _) fun k hk => AList.lookup_erase_ne hk, rfl⟩

/-- After any messages the contacts are those who should be. -/
theorem held_of_reachable (h : (links type this).Reachable s) : Held type s := by
  refine System.Reachable.invariant (I := Held type) ?_ ?_ h
  · rintro _ rfl
    exact ⟨fun _ => AList.lookup_empty _, nofun⟩
  · intro s m s' hI hs
    cases m with
    | addLink sender =>
      cases sender with
      | none => cases hs
      | some a => exact hI.addLink hs
    | removeLink sender =>
      cases sender with
      | none => cases hs
      | some b => exact (hI.removeLink hs).1

/-- **One removal** leaves the others alone exactly if it takes nobody else's contact away. -/
theorem spares_iff (h : Held type s) (m : LinkMessage A) :
    Spares type this s m ↔ Own type s m := by
  constructor
  · rintro hm b rfl
    by_contra hne
    obtain ⟨hn, hb⟩ := not_or.mp hne
    obtain ⟨c, hc⟩ := Option.ne_none_iff_exists'.mp hn
    have hcb : type c = type b := h.typed _ c hc
    have hs : (links type this).step s (.removeLink (some b)) =
        some ⟨s.contacts.erase (type b), Function.update s.holder (type b) none⟩ := rfl
    -- the contact of the name loses its link
    have hiff := hm b rfl c (fun he => hb (he ▸ hc)) _ hs
    obtain ⟨h', hh⟩ := h.removeLink hs
    rw [h'.has_iff, h.has_iff, hcb, hc, hh, Function.update_self] at hiff
    cases hiff.mpr rfl
  · rintro hm b rfl a hab s' hs
    obtain ⟨h', hh⟩ := h.removeLink hs
    rw [h'.has_iff, h.has_iff, hh]
    by_cases hk : type a = type b
    · rw [hk, Function.update_self]
      refine iff_of_false nofun fun ha => ?_
      rcases hm b rfl with hb | hb
      · rw [hb] at ha
        cases ha
      · exact hab (Option.some.inj (ha.symm.trans hb))
    · rw [Function.update_of_ne hk]

/-- **Removals leave the others' links alone exactly in the runs in which each comes from the
contact of its name, or finds none there.** -/
theorem remove_link_iff {tr : List (Links A κ × LinkMessage A)} (h : (links type this).Run tr s) :
    System.Meets (Spares type this) tr ↔ System.Meets (Own type) tr := by
  refine forall₂_congr fun p hp => ?_
  exact spares_iff (held_of_reachable (h.reachable_of_mem hp)) p.2

/-- Two workers are linked and the first, who is the contact, is removed. -/
theorem remove_link_iff_first :
    System.Meets (Spares (fun _ => "worker") 0)
        [({}, .addLink (some 1)),
          (⟨AList.insert "worker" (some 1) ∅, Function.update (fun _ => none) "worker" (some 1)⟩,
            .addLink (some 2)),
          (⟨AList.insert "worker" (some 1) ∅, Function.update (fun _ => none) "worker" (some 1)⟩,
            .removeLink (some 1))] ↔
      System.Meets (Own fun _ : ℕ => "worker")
        [({}, .addLink (some 1)),
          (⟨AList.insert "worker" (some 1) ∅, Function.update (fun _ => none) "worker" (some 1)⟩,
            .addLink (some 2)),
          (⟨AList.insert "worker" (some 1) ∅, Function.update (fun _ => none) "worker" (some 1)⟩,
            .removeLink (some 1))] :=
  remove_link_iff (.step (.step (.step (.init rfl) rfl) rfl) rfl)

/-- The second of two workers is removed, and with it goes the link to the first. -/
theorem remove_link_takes_first :
    ∃ (tr : List (Links ℕ String × LinkMessage ℕ)) (s s' : Links ℕ String),
      (links (fun _ => "worker") 0).Run tr s ∧
      tr.map Prod.snd = [.addLink (some 1), .addLink (some 2)] ∧
      (links (fun _ => "worker") 0).step s (.removeLink (some 2)) = some s' ∧
      Has s.contacts 1 ∧ ¬ Has s'.contacts 1 := by
  refine ⟨_, _, _, .step (.step (.init rfl) rfl) rfl, rfl, rfl, ⟨"worker", rfl⟩, ?_⟩
  rintro ⟨k, hk⟩
  by_cases h : k = "worker"
  · subst h
    cases hk
  · rw [AList.lookup_erase_ne h] at hk
    cases (AList.lookup_insert_ne h).symm.trans hk

end ActorAbstract

end ActorsFramework.Supervisor
