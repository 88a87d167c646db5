import ActorsFramework.Supervisor.Contacts

/-!
# Removing a link

`supervisor_abstract::remove_link_impl` with the iterators of its loop. A `std::list`
is a sequence of nodes, each with an address in it; an iterator is a node, or
`end()`. Erasing a node invalidates the iterators to it and no others, and an
invalid iterator can be neither read nor advanced.

The loop erases the node that its iterator points to and then advances the
iterator. `removeLinkNodes_iff`: it does what it is for exactly where there is
nothing to erase.
-/

namespace ActorsFramework.Supervisor

variable {A κ N : Type*} [DecidableEq A] [DecidableEq κ] [DecidableEq N]

/-- `std::list<address_t>`: no node is in it twice. -/
structure StdList (N A : Type*) where
  /-- The nodes in their order, each with its element. -/
  nodes : List (N × Address A)
  /-- They are different. -/
  distinct : (nodes.map Prod.fst).Nodup

namespace StdList

/-- The elements. -/
def addresses (l : StdList N A) : List (Address A) := l.nodes.map Prod.snd

/-- `begin()`; `end()` is `none`. -/
def begin (l : StdList N A) : Option N := l.nodes.head?.map Prod.fst

/-- `*i`. -/
def get (i : N) : List (N × Address A) → Except Fault (Address A)
  | [] => .error .erasedIterator
  | (n, a) :: nodes => if n = i then .ok a else get i nodes

/-- `++i`. -/
def advance (i : N) : List (N × Address A) → Except Fault (Option N)
  | [] => .error .erasedIterator
  | (n, _) :: nodes => if n = i then .ok (nodes.head?.map Prod.fst) else advance i nodes

/-- `erase(i)`. -/
def erase (l : StdList N A) (i : N) : StdList N A where
  nodes := l.nodes.filter (·.1 ≠ i)
  distinct := l.distinct.sublist (List.filter_sublist.map Prod.fst)

/-- The list without the nodes that hold a given address. -/
def without (l : StdList N A) (address : Address A) : StdList N A where
  nodes := l.nodes.filter (·.2 ≠ address)
  distinct := l.distinct.sublist (List.filter_sublist.map Prod.fst)

/-- The loop of `remove_link_impl`, given up after a number of tests. -/
def eraseLoop (address : Address A) :
    ℕ → StdList N A → Option N → Option (Except Fault (StdList N A))
  | 0, _, _ => none
  | _ + 1, l, none => some (.ok l)
  | n + 1, l, some i =>
    match get i l.nodes with
    | .error e => some (.error e)
    | .ok a =>
      let l := if address = a then l.erase i else l
      match advance i l.nodes with
      | .error e => some (.error e)
      | .ok i => eraseLoop address n l i

omit [DecidableEq A] in
/-- An iterator to a node of the list is read and advanced. -/
theorem iterator_eq {u v : List (N × Address A)} {i : N} {a : Address A}
    (hd : ((u ++ (i, a) :: v).map Prod.fst).Nodup) :
    get i (u ++ (i, a) :: v) = .ok a ∧
      advance i (u ++ (i, a) :: v) = .ok (v.head?.map Prod.fst) := by
  induction u with
  | nil => exact ⟨if_pos rfl, if_pos rfl⟩
  | cons x u ih =>
    obtain ⟨hx, hd⟩ := List.nodup_cons.mp hd
    have hne : x.1 ≠ i := by
      rintro rfl
      simp at hx
    rw [List.cons_append, get, advance, if_neg hne, if_neg hne]
    exact ih hd

omit [DecidableEq A] in
/-- An iterator to no node of the list cannot be advanced. -/
theorem advance_of_notMem {i : N} {nodes : List (N × Address A)} (h : i ∉ nodes.map Prod.fst) :
    advance i nodes = .error .erasedIterator := by
  induction nodes with
  | nil => rfl
  | cons x nodes ih =>
    rw [List.map_cons, List.mem_cons, not_or] at h
    rw [advance, if_neg (Ne.symm h.1)]
    exact ih h.2

omit [DecidableEq A] in
theorem notMem_erase (l : StdList N A) (i : N) : i ∉ (l.erase i).nodes.map Prod.fst := by
  intro h
  obtain ⟨x, hx, rfl⟩ := List.mem_map.mp h
  exact absurd rfl (of_decide_eq_true (List.mem_filter.mp hx).2)

/-- **The loop over the nodes is the loop over their addresses**, and where that comes to an
end the list is as it was. -/
theorem eraseLoop_eq (address : Address A) {l : StdList N A} {u v : List (N × Address A)}
    (hl : l.nodes = u ++ v) {n : ℕ} (hn : v.length < n) :
    l.eraseLoop address n (v.head?.map Prod.fst) =
      some ((SupervisorAbstract.eraseLoop address (v.map Prod.snd)).map fun _ => l) := by
  induction v generalizing u n with
  | nil =>
    obtain _ | n := n
    · cases hn
    · rfl
  | cons x v ih =>
    obtain _ | n := n
    · cases hn
    obtain ⟨i, a⟩ := x
    obtain ⟨hget, hadv⟩ := iterator_eq (hl ▸ l.distinct)
    rw [← hl] at hget hadv
    simp only [List.head?_cons, Option.map_some, eraseLoop, hget, List.map_cons,
      SupervisorAbstract.eraseLoop]
    by_cases ha : address = a
    · -- the node has gone, and its iterator is advanced
      rw [if_pos ha, if_pos ha, advance_of_notMem (l.notMem_erase i)]
      rfl
    · have hrest := ih (u := u ++ [(i, a)]) (by rw [hl, List.append_assoc]; rfl)
        (Nat.lt_of_succ_lt_succ hn)
      rw [if_neg ha, if_neg ha, hadv]
      dsimp only
      rw [hrest]
      cases SupervisorAbstract.eraseLoop address (v.map Prod.snd) <;> rfl

omit [DecidableEq N] in
/-- A list that does not hold the address is the same without it. -/
theorem without_of_notMem {l : StdList N A} {address : Address A} (h : address ∉ l.addresses) :
    l.without address = l := by
  obtain ⟨nodes, hd⟩ := l
  have hf : nodes.filter (·.2 ≠ address) = nodes :=
    List.filter_eq_self.mpr fun x hx => decide_eq_true fun he => h (he ▸ List.mem_map_of_mem hx)
  simp only [without, hf]

end StdList

namespace SupervisorAbstract

/-- `supervisor_abstract::contacts_`, with the nodes of its lists. -/
abbrev NodeContacts (N A κ : Type*) := AList fun _ : κ => StdList N A

/-- `supervisor_abstract::remove_link_impl`; its loop makes at most `n` tests. -/
def removeLinkNodes (type : A → κ) (n : ℕ) (contacts : NodeContacts N A κ) (address : Address A) :
    Option (Except Fault (NodeContacts N A κ)) :=
  match address.type type with
  | .error e => some (.error e)
  | .ok name =>
    match contacts.lookup name with
    | none => some (.ok contacts)
    | some l =>
      (l.eraseLoop address n l.begin).map fun r => r.map fun l => contacts.insert name l

/-- What is asked of the removal of a party: the loop ends and has used only valid iterators;
exactly the entries of this party are gone from the list of its type, and the other lists are
as they were. -/
def Removes (type : A → κ) (contacts : NodeContacts N A κ) (a : A)
    (outcome : Option (Except Fault (NodeContacts N A κ))) : Prop :=
  ∃ contacts', outcome = some (.ok contacts') ∧
    contacts'.lookup (type a) = (contacts.lookup (type a)).map (·.without (some a)) ∧
    ∀ k, k ≠ type a → contacts'.lookup k = contacts.lookup k

/-- **A party is removed exactly where it was not there**: the loop is in order on every list
that does not hold the address, and on no other. -/
theorem removeLinkNodes_iff (type : A → κ) (contacts : NodeContacts N A κ) (a : A) {n : ℕ}
    (hn : ∀ l, contacts.lookup (type a) = some l → l.nodes.length < n) :
    Removes type contacts a (removeLinkNodes type n contacts (some a)) ↔
      ∀ l, contacts.lookup (type a) = some l → some a ∉ l.addresses := by
  cases hl : contacts.lookup (type a) with
  | none =>
    refine iff_of_true ⟨contacts, ?_, ?_, fun k _ => rfl⟩ nofun
    · simp only [removeLinkNodes, Address.type, hl]
    · rw [hl]; rfl
  | some l =>
    have hloop : l.eraseLoop (some a) n l.begin =
        some ((eraseLoop (some a) l.addresses).map fun _ => l) :=
      StdList.eraseLoop_eq (some a) (u := []) rfl (hn l hl)
    constructor
    · rintro ⟨contacts', hc, -⟩ l' ⟨⟩ hm
      simp only [removeLinkNodes, Address.type, hl, hloop, eraseLoop_of_mem hm] at hc
      cases hc
    · intro h
      have hm := h l rfl
      refine ⟨contacts.insert (type a) l, ?_, ?_, fun k hk => AList.lookup_insert_ne hk⟩
      · simp only [removeLinkNodes, Address.type, hl, hloop, eraseLoop_of_notMem hm]
        rfl
      · rw [AList.lookup_insert, hl, Option.map_some, StdList.without_of_notMem hm]

/-- Contacts with the worker `1` alone. -/
def oneWorker : NodeContacts ℕ ℕ String := AList.insert "worker" ⟨[(0, some 1)], by decide⟩ ∅

/-- Party `2` is not among them. -/
theorem removeLinkNodes_iff_absent :
    Removes (fun _ => "worker") oneWorker 2
        (removeLinkNodes (fun _ => "worker") 2 oneWorker (some 2)) ↔
      ∀ l, oneWorker.lookup "worker" = some l → some 2 ∉ l.addresses :=
  removeLinkNodes_iff (fun _ => "worker") oneWorker 2 fun l hl => by
    cases hl
    decide

/-- The only contact is removed: the loop advances the iterator to the node that it has
erased. -/
theorem removeLinkNodes_erased :
    removeLinkNodes (fun _ => "worker") 2 oneWorker (some 1) = some (.error .erasedIterator) ∧
      ¬ Removes (fun _ => "worker") oneWorker 1
        (removeLinkNodes (fun _ => "worker") 2 oneWorker (some 1)) := by
  refine ⟨rfl, ?_⟩
  rintro ⟨contacts', hc, -⟩
  cases hc

end SupervisorAbstract

end ActorsFramework.Supervisor
