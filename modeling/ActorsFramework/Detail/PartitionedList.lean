import ActorsFramework.Lib.DoublyLinked
import ActorsFramework.Detail.Reader

/-!
# The partitioned list in memory

`detail::intrusive_partitioned_list` with its elements linked through their `next`
and `prev` fields. Three sentinels, `head_`, `separator_` and `tail_`, are part of
the list object; between the first two lies the first part of the list, between the
last two the second. An iterator is a pointer to an element or to a sentinel.

The fields belong to the elements and not to the list: those of an element outside
the list may hold anything, and other code may write to them at any time. What is
deleted is gone, so its fields are null afterwards.

`refines_lists`: after any sequence of operations the links hold two lists, those
of the `Cache` on which the same operations were done, and each operation has on
the links the outcome it has on the lists.
-/

namespace ActorsFramework.Detail

open Lib

variable {A : Type*}

/-- What an iterator may point to. -/
inductive Node (A : Type*) where
  /-- `&head_`. -/
  | head
  /-- `&separator_`. -/
  | separator
  /-- `&tail_`. -/
  | tail
  /-- An element. -/
  | elem (a : A)
  deriving DecidableEq

/-- `intrusive_partitioned_list`: the fields of its sentinels and of all elements there are. -/
abbrev PartitionedList (A : Type*) := DoubleLinks (Node A)

namespace PartitionedList

variable [DecidableEq A]

/-- The constructor, with any contents of the memory. -/
def construct (f : PartitionedList A) : PartitionedList A :=
  (((f.setNext .head (some .separator)).setPrev .separator (some .head)).setNext .separator
    (some .tail)).setPrev .tail (some .separator)

/-- `begin`. -/
def begin (f : PartitionedList A) : Option (Node A) := f.next .head

/-- `continuation`. -/
def continuation (f : PartitionedList A) : Option (Node A) := f.next .separator

/-- `empty`. -/
def empty (f : PartitionedList A) : Bool :=
  f.next .head = some .separator && f.next .separator = some .tail

/-- `insert` of `val` in front of `next`, with the iterator that it returns. -/
def insert (f : PartitionedList A) (next : Node A) (val : A) : Option (PartitionedList A × Node A) :=
  match f.prev next with
  | none => none
  | some prev => some (DoubleLinks.insert f prev (.elem val) next, .elem val)

/-- `take`, with the pointer that it returns. -/
def take (f : PartitionedList A) (pos : Node A) : Option (PartitionedList A × Node A) :=
  match f.next pos, f.prev pos with
  | some next, some prev => some (f.bypass prev next, pos)
  | _, _ => none

/-- The memory of an element is given back. -/
def free (f : PartitionedList A) (a : A) : PartitionedList A :=
  (f.setNext (.elem a) none).setPrev (.elem a) none

/-- `delete_`. A sentinel was not allocated and cannot be deleted. -/
def delete (f : PartitionedList A) : Node A → Option (PartitionedList A × List (Event A))
  | .elem a => some (f.free a, [.delete a])
  | _ => none

/-- `erase`, with the iterator that it returns. -/
def erase (f : PartitionedList A) (pos : Node A) :
    Option (PartitionedList A × Node A × List (Event A)) :=
  match f.next pos with
  | none => none
  | some next =>
    match f.take pos with
    | none => none
    | some (f, ptr) => (f.delete ptr).map fun r => (r.1, next, r.2)

/-- The loop of `clear` over one range: the iterator moves on before the element is visited
and deleted. After `n` tests the loop is given up. -/
def clearRange (e : Node A) :
    ℕ → Option (Node A) → PartitionedList A → Option (PartitionedList A × List (Event A))
  | 0, _, _ => none
  | _ + 1, none, _ => none
  | n + 1, some ptr, f =>
    if ptr = e then some (f, [])
    else match ptr with
      | .elem a =>
        (clearRange e n (f.next (.elem a)) (f.free a)).map fun r => (r.1, .visit a :: .delete a :: r.2)
      | _ => none

/-- The `if`s of `clear`, each for two sentinels. -/
def reset (f : PartitionedList A) (x y : Node A) : PartitionedList A :=
  if f.next x ≠ some y then (f.setNext x (some y)).setPrev y (some x) else f

/-- `clear(f)`; the two ranges are taken before the loops. -/
def clear (n : ℕ) (f : PartitionedList A) : Option (PartitionedList A × List (Event A)) :=
  match clearRange .separator n f.begin f with
  | none => none
  | some (f₁, log) =>
    (clearRange .tail n f.continuation f₁).map fun r =>
      ((r.1.reset .head .separator).reset .separator .tail, log ++ r.2)

end PartitionedList

/-! ### The operations on the two lists -/

namespace Cache

variable [DecidableEq A]

/-- The elements of both parts. -/
def elems (c : Cache A) : List A := c.first ++ c.second

/-- `insert` in front of what the iterator points to. -/
def insert (c : Cache A) (next : Node A) (val : A) : Cache A :=
  match next with
  | .head => c
  | .separator => c.insertFirst c.first.length val
  | .tail => c.insertSecond c.second.length val
  | .elem a =>
    if a ∈ c.first then c.insertFirst (c.first.idxOf a) val
    else c.insertSecond (c.second.idxOf a) val

/-- What is behind an element. -/
def successor (c : Cache A) (a : A) : Node A :=
  if a ∈ c.first then ((c.first.drop (c.first.idxOf a + 1)).head?.map .elem).getD .separator
  else ((c.second.drop (c.second.idxOf a + 1)).head?.map .elem).getD .tail

/-- The iterators that `insert` may be given. -/
def Marks (c : Cache A) : Node A → Prop
  | .head => False
  | .separator | .tail => True
  | .elem a => a ∈ c.elems

/-- The sentinels and elements, in the order of the links. -/
def nodes (c : Cache A) : List (Node A) :=
  .head :: (c.first.map .elem ++ .separator :: (c.second.map .elem ++ [.tail]))

end Cache

/-! ### Any sequence of operations -/

namespace PartitionedList

/-- An operation on the list, or a write of somebody else to the fields of an element. -/
inductive Op (A : Type*) where
  /-- `insert`. -/
  | insert (next : Node A) (val : A)
  /-- `take`. -/
  | take (pos : A)
  /-- `erase`. -/
  | erase (pos : A)
  /-- `clear`. -/
  | clear
  /-- The fields of an element are written. -/
  | write (a : A) (next prev : Option (Node A))
  deriving DecidableEq

/-- The elements that an operation brings along. -/
def Op.subject : Op A → List A
  | .insert _ val => [val]
  | .write a _ _ => [a]
  | _ => []

/-- The iterator or pointer that an operation returns, and what it does to the elements. -/
structure Answer (A : Type*) where
  /-- What is returned. -/
  returned : Option (Node A) := none
  /-- The visits and deletions. -/
  log : List (Event A) := []
  deriving DecidableEq

variable [DecidableEq A]

/-- The operation on the links; the loops of `clear` make at most `n` tests. -/
def call (n : ℕ) (f : PartitionedList A) : Op A → Option (PartitionedList A × Answer A)
  | .insert next val => (f.insert next val).map fun r => (r.1, { returned := some r.2 })
  | .take pos => (f.take (.elem pos)).map fun r => (r.1, { returned := some r.2 })
  | .erase pos => (f.erase (.elem pos)).map fun r => (r.1, { returned := some r.2.1, log := r.2.2 })
  | .clear => (f.clear n).map fun r => (r.1, { log := r.2 })
  | .write a next prev => some ((f.setNext (.elem a) next).setPrev (.elem a) prev, {})

end PartitionedList

open PartitionedList

namespace Cache

variable [DecidableEq A]

/-- The operation on the two lists. -/
def apply (c : Cache A) : Op A → Cache A × Answer A
  | .insert next val => (c.insert next val, { returned := some (.elem val) })
  | .take pos => (c.take pos, { returned := some (.elem pos) })
  | .erase pos => (c.take pos, { returned := some (c.successor pos), log := [.delete pos] })
  | .clear => (c.clear.1, { log := c.clear.2 })
  | .write _ _ _ => (c, {})

/-- A node is inserted that is not in the list, at a place in the list; what is taken or erased
is in the list; and other code writes only to elements that are not. -/
def Accepts (c : Cache A) : Op A → Prop
  | .insert next val => c.Marks next ∧ val ∉ c.elems
  | .take pos | .erase pos => pos ∈ c.elems
  | .clear => True
  | .write a _ _ => a ∉ c.elems

instance (c : Cache A) (next : Node A) : Decidable (c.Marks next) :=
  match next with
  | .head => isFalse id
  | .separator | .tail => isTrue trivial
  | .elem a => inferInstanceAs (Decidable (a ∈ c.elems))

instance (c : Cache A) (op : Op A) : Decidable (c.Accepts op) :=
  match op with
  | .insert next val => inferInstanceAs (Decidable (c.Marks next ∧ val ∉ c.elems))
  | .take pos | .erase pos => inferInstanceAs (Decidable (pos ∈ c.elems))
  | .clear => isTrue trivial
  | .write a _ _ => inferInstanceAs (Decidable (a ∉ c.elems))

end Cache

namespace PartitionedList

variable [DecidableEq A]

/-- The list and the two lists it should hold, after any operations; it is constructed in
memory with any contents. -/
def system (A : Type*) [DecidableEq A] : System (PartitionedList A × Cache A) (Op A) where
  Init s := ∃ f, s = (construct f, {})
  step s op :=
    if s.2.Accepts op then
      (s.1.call (s.2.elems.length + 1) op).map fun r => (r.1, (s.2.apply op).1)
    else none

/-- The loops along the links visit the two lists. -/
structure Represents (f : PartitionedList A) (c : Cache A) : Prop where
  /-- From `begin()` to `separator()`. -/
  first : ∀ n, c.first.length < n → walk f.next .separator n f.begin = some (c.first.map .elem)
  /-- From `continuation()` to `end()`. -/
  second : ∀ n, c.second.length < n → walk f.next .tail n f.continuation = some (c.second.map .elem)
  /-- From `separator()` back to the sentinel in front. -/
  firstBack : ∀ n, c.first.length < n →
    walk f.prev .head n (f.prev .separator) = some (c.first.reverse.map .elem)
  /-- From `end()` back to `separator()`. -/
  secondBack : ∀ n, c.second.length < n →
    walk f.prev .separator n (f.prev .tail) = some (c.second.reverse.map .elem)
  /-- `empty`. -/
  empty : f.empty = true ↔ c.first = [] ∧ c.second = []

/-- The invariant: sentinels and elements are one row, and no element is in it twice. -/
structure Holds (f : PartitionedList A) (c : Cache A) : Prop where
  row : f.Row c.nodes
  nodup : c.elems.Nodup

end PartitionedList

/-! ### Where the operations are in the row -/

namespace Cache

variable {c : Cache A} {a : A}

theorem nodes_nodup (h : c.elems.Nodup) : c.nodes.Nodup := by
  obtain ⟨h₁, h₂, hd⟩ := List.nodup_append.mp h
  have hinj : Function.Injective (Node.elem : A → Node A) := fun _ _ he => Node.elem.inj he
  have hm₁ := h₁.map hinj
  have hm₂ := h₂.map hinj
  simp only [nodes, List.nodup_cons, List.nodup_append, List.mem_append, List.mem_cons, List.mem_map,
    reduceCtorEq, and_false, exists_false, List.not_mem_nil, or_false, not_false_eq_true, true_and,
    hm₁, hm₂, List.nodup_nil]
  refine ⟨?_, ?_⟩
  · rintro _ ⟨a, -, rfl⟩ _ rfl
    nofun
  · rintro _ ⟨a, ha, rfl⟩ x (rfl | ⟨b, hb, rfl⟩ | rfl)
    · nofun
    · exact fun he => hd a ha b hb (Node.elem.inj he)
    · nofun

theorem mem_nodes : Node.elem a ∈ c.nodes ↔ a ∈ c.elems := by
  simp [nodes, elems]

/-- Behind elements comes another element, or what is behind the list. -/
theorem next_of_part (l : List A) (e : Node A) (v : List (Node A)) :
    ∃ v', l.map .elem ++ e :: v = (l.head?.map .elem).getD e :: v' := by
  cases l with
  | nil => exact ⟨v, rfl⟩
  | cons b l => exact ⟨_, rfl⟩

theorem elems_insertFirst {i : ℕ} (hi : i ≤ c.first.length) (val : A) :
    (c.insertFirst i val).elems.Perm (val :: c.elems) :=
  (List.perm_insertIdx val c.first hi).append_right c.second

theorem elems_insertSecond {i : ℕ} (hi : i ≤ c.second.length) (val : A) :
    (c.insertSecond i val).elems.Perm (val :: c.elems) :=
  ((List.perm_insertIdx val c.second hi).append_left c.first).trans List.perm_middle

/-- In front of everything behind `head_` there is a node. -/
theorem exists_front (w : List (Node A)) : ∃ u x, ∀ v, .head :: w ++ v = u ++ x :: v := by
  refine ⟨(.head :: w).dropLast, (.head :: w).getLast (List.cons_ne_nil _ _), fun v => ?_⟩
  rw [List.append_cons, List.dropLast_concat_getLast]

variable [DecidableEq A]

/-- The place of an element in a list without repetitions. -/
theorem split_at {l : List A} (ha : a ∈ l) (h : l.Nodup) :
    ∃ s t, l = s ++ a :: t ∧ l.erase a = s ++ t ∧ l.drop (l.idxOf a + 1) = t ∧
      ∀ x, l.insertIdx (l.idxOf a) x = s ++ x :: a :: t := by
  obtain ⟨s, t, rfl, hs⟩ := List.eq_append_cons_of_mem ha
  have hi : (s ++ a :: t).idxOf a = s.length := by
    rw [List.idxOf_append_of_notMem hs, List.idxOf_cons_self, Nat.add_zero]
  refine ⟨s, t, rfl, ?_, ?_, fun x => ?_⟩
  · rw [List.erase_append_right _ hs, List.erase_cons_head]
  · rw [hi, List.drop_append, List.drop_of_length_le (Nat.le_succ _)]
    simp
  · rw [hi, insertIdx_length]

theorem take_first (ha : a ∈ c.first) (h : c.elems.Nodup) : c.take a = ⟨c.first.erase a, c.second⟩ := by
  have h₂ : a ∉ c.second := fun h₂ => (List.nodup_append.mp h).2.2 a ha a h₂ rfl
  rw [take, List.erase_of_not_mem h₂]

theorem take_second (ha : a ∉ c.first) : c.take a = ⟨c.first, c.second.erase a⟩ := by
  rw [take, List.erase_of_not_mem ha]

/-- An insertion puts one node into the row. -/
theorem nodes_insert (h : c.elems.Nodup) {next : Node A} (hm : c.Marks next) (val : A) :
    ∃ w v, c.nodes = .head :: w ++ next :: v ∧ (c.insert next val).nodes = .head :: w ++ .elem val :: next :: v := by
  cases next with
  | head => exact hm.elim
  | separator =>
    refine ⟨c.first.map .elem, c.second.map .elem ++ [.tail], rfl, ?_⟩
    simp [insert, insertFirst, nodes]
  | tail =>
    refine ⟨c.first.map .elem ++ .separator :: c.second.map .elem, [], by simp [nodes], ?_⟩
    simp [insert, insertSecond, nodes]
  | elem a =>
    obtain ⟨hn₁, hn₂, -⟩ := List.nodup_append.mp h
    by_cases ha : a ∈ c.first
    · obtain ⟨s, t, hl, -, -, hi⟩ := split_at ha hn₁
      refine ⟨s.map .elem, t.map .elem ++ .separator :: (c.second.map .elem ++ [.tail]), ?_, ?_⟩
      · simp [nodes, hl]
      · simp [insert, if_pos ha, insertFirst, hi, nodes]
    · obtain ⟨s, t, hl, -, -, hi⟩ := split_at ((List.mem_append.mp hm).resolve_left ha) hn₂
      refine ⟨c.first.map .elem ++ .separator :: s.map .elem, t.map .elem ++ [.tail], ?_, ?_⟩
      · simp [nodes, hl]
      · simp [insert, if_neg ha, insertSecond, hi, nodes]

/-- A removal takes one node out of the row. -/
theorem nodes_take (h : c.elems.Nodup) (ha : a ∈ c.elems) :
    ∃ w v, c.nodes = .head :: w ++ .elem a :: c.successor a :: v ∧
      (c.take a).nodes = .head :: w ++ c.successor a :: v := by
  obtain ⟨hn₁, hn₂, -⟩ := List.nodup_append.mp h
  by_cases ha₁ : a ∈ c.first
  · obtain ⟨s, t, hl, he, hd, -⟩ := split_at ha₁ hn₁
    obtain ⟨v, hv⟩ := next_of_part t .separator (c.second.map .elem ++ [.tail])
    refine ⟨s.map .elem, v, ?_, ?_⟩
    · rw [successor, if_pos ha₁, hd, ← hv, nodes, hl]
      simp
    · rw [take_first ha₁ h, successor, if_pos ha₁, hd, ← hv, nodes, he]
      simp
  · obtain ⟨s, t, hl, he, hd, -⟩ := split_at ((List.mem_append.mp ha).resolve_left ha₁) hn₂
    obtain ⟨v, hv⟩ := next_of_part t .tail []
    refine ⟨c.first.map .elem ++ .separator :: s.map .elem, v, ?_, ?_⟩
    · rw [successor, if_neg ha₁, hd, ← hv, nodes, hl]
      simp
    · rw [take_second ha₁, successor, if_neg ha₁, hd, ← hv, nodes, he]
      simp

/-- An insertion adds one element. -/
theorem elems_insert {next : Node A} (hm : c.Marks next) (val : A) :
    (c.insert next val).elems.Perm (val :: c.elems) := by
  cases next with
  | head => exact hm.elim
  | separator => exact elems_insertFirst le_rfl val
  | tail => exact elems_insertSecond le_rfl val
  | elem a =>
    by_cases ha : a ∈ c.first
    · rw [insert, if_pos ha]
      exact elems_insertFirst List.idxOf_le_length val
    · rw [insert, if_neg ha]
      exact elems_insertSecond List.idxOf_le_length val

/-- A removal takes one element away. -/
theorem elems_take (h : c.elems.Nodup) :
    (c.take a).elems.Sublist c.elems ∧ a ∉ (c.take a).elems := by
  obtain ⟨hn₁, hn₂, -⟩ := List.nodup_append.mp h
  refine ⟨(List.erase_sublist).append List.erase_sublist, fun hm => ?_⟩
  rcases List.mem_append.mp hm with hm | hm
  · exact hn₁.not_mem_erase hm
  · exact hn₂.not_mem_erase hm

end Cache

namespace PartitionedList

variable [DecidableEq A] {f : PartitionedList A} {c : Cache A}

theorem holds_construct (f : PartitionedList A) : Holds (construct f) ({} : Cache A) where
  row := List.isChain_cons_cons.mpr ⟨⟨rfl, rfl⟩, List.isChain_pair.mpr ⟨rfl, rfl⟩⟩
  nodup := List.nodup_nil

/-- The `next` fields of all elements but these are left alone. -/
def Frame (f f' : PartitionedList A) (l : List A) : Prop :=
  ∀ a, a ∉ l → f'.next (.elem a) = f.next (.elem a)

namespace Holds

omit [DecidableEq A] in
/-- In front of a node of the list is another. -/
theorem prev_mem (h : Holds f c) {x z : Node A} (hz : z ∈ c.nodes) (hh : z ≠ .head)
    (hp : f.prev z = some x) : x ∈ c.nodes :=
  DoubleLinks.Row.prev_mem h.row ((List.mem_cons.mp hz).resolve_left hh) hp

omit [DecidableEq A] in
/-- A write to the `next` field of a node of the list is none to that of another element. -/
theorem elem_ne (h : Holds f c) {x z : Node A} (hz : z ∈ c.nodes) (hh : z ≠ .head)
    (hp : f.prev z = some x) {a : A} (ha : a ∉ c.elems) : Node.elem a ≠ x := by
  rintro rfl
  exact ha (Cache.mem_nodes.mp (h.prev_mem hz hh hp))

/-- `insert`. -/
theorem insert (h : Holds f c) {next : Node A} {val : A} (hm : c.Marks next) (hv : val ∉ c.elems) :
    ∃ f', f.insert next val = some (f', .elem val) ∧ Holds f' (c.insert next val) ∧
      Frame f f' (val :: c.elems) := by
  obtain ⟨w, v, h₁, h₂⟩ := Cache.nodes_insert h.nodup hm val
  obtain ⟨u, x, hu⟩ := Cache.exists_front w
  have hrow := h.row
  have hnd := Cache.nodes_nodup h.nodup
  have hval := mt Cache.mem_nodes.mp hv
  rw [h₁, hu] at hrow hnd hval
  refine ⟨DoubleLinks.insert f x (.elem val) next, ?_, ⟨?_, ?_⟩, fun a ha => ?_⟩
  · rw [PartitionedList.insert, hrow.joined.prev]
  · rw [h₂, hu]
    exact hrow.insert hnd hval
  · exact (Cache.elems_insert hm val).nodup_iff.mpr (List.nodup_cons.mpr ⟨hv, h.nodup⟩)
  · obtain ⟨hav, hac⟩ := not_or.mp (mt List.mem_cons.mpr ha)
    have hx := h.elem_ne (by rw [h₁, hu]; simp) (by rintro rfl; exact hm) hrow.joined.prev hac
    have hval : Node.elem a ≠ .elem val := fun he => hav (Node.elem.inj he)
    rw [DoubleLinks.insert, DoubleLinks.next_setPrev, DoubleLinks.next_setNext_of_ne hx,
      DoubleLinks.next_setNext_of_ne hval, DoubleLinks.next_setPrev]

/-- `take`. -/
theorem take (h : Holds f c) {a : A} (ha : a ∈ c.elems) :
    f.next (.elem a) = some (c.successor a) ∧
      ∃ f', f.take (.elem a) = some (f', .elem a) ∧ Holds f' (c.take a) ∧ Frame f f' c.elems := by
  obtain ⟨w, v, h₁, h₂⟩ := Cache.nodes_take h.nodup ha
  obtain ⟨u, x, hu⟩ := Cache.exists_front w
  have hrow := h.row
  have hnd := Cache.nodes_nodup h.nodup
  rw [h₁, hu] at hrow hnd
  have hprev := hrow.joined.prev
  have hnext : f.next (.elem a) = some (c.successor a) :=
    (DoubleLinks.Row.joined (u := u ++ [x]) (by rwa [List.append_assoc])).next
  refine ⟨hnext, f.bypass x (c.successor a), ?_,
    ⟨?_, h.nodup.sublist (Cache.elems_take h.nodup).1⟩, fun b hb => ?_⟩
  · rw [PartitionedList.take, hnext, hprev]
  · rw [h₂, hu]
    exact hrow.remove hnd
  · have hx := h.elem_ne (Cache.mem_nodes.mpr ha) nofun hprev hb
    rw [DoubleLinks.bypass, DoubleLinks.next_setPrev, DoubleLinks.next_setNext_of_ne hx]

/-- A write to the fields of an element that is not in the list. -/
theorem write (h : Holds f c) {a : A} (ha : a ∉ c.elems) (p q : Option (Node A)) :
    Holds ((f.setNext (.elem a) p).setPrev (.elem a) q) c :=
  ⟨h.row.write (mt Cache.mem_nodes.mp ha) p q, h.nodup⟩

/-- `erase`. -/
theorem erase (h : Holds f c) {a : A} (ha : a ∈ c.elems) :
    ∃ f', f.erase (.elem a) = some (f', c.successor a, [.delete a]) ∧ Holds f' (c.take a) ∧
      Frame f f' c.elems := by
  obtain ⟨hnext, f', ht, h', hfr⟩ := h.take ha
  refine ⟨f'.free a, ?_, h'.write (Cache.elems_take h.nodup).2 none none, fun b hb => ?_⟩
  · rw [PartitionedList.erase, hnext]
    dsimp only
    rw [ht]
    rfl
  · have hba : Node.elem b ≠ .elem a := fun he => hb (Node.elem.inj he ▸ ha)
    rw [free, DoubleLinks.next_setPrev, DoubleLinks.next_setNext_of_ne hba]
    exact hfr b hb

end Holds

/-! ### Clearing -/

/-- The fields of other nodes are not touched when elements are deleted. -/
theorem fields_free {x : Node A} {l : List A} (hx : ∀ a ∈ l, x ≠ .elem a) (f : PartitionedList A) :
    (l.foldl free f).next x = f.next x ∧ (l.foldl free f).prev x = f.prev x := by
  induction l generalizing f with
  | nil => exact ⟨rfl, rfl⟩
  | cons a l ih =>
    have ha := hx a List.mem_cons_self
    obtain ⟨hn, hp⟩ := ih (fun b hb => hx b (List.mem_cons_of_mem a hb)) (f.free a)
    rw [List.foldl_cons, hn, hp]
    exact ⟨DoubleLinks.next_setNext_of_ne ha none, DoubleLinks.prev_setPrev_of_ne ha none⟩

/-- A row without the deleted elements is as it was. -/
theorem row_free {r : List (Node A)} {l : List A} (h : f.Row r) (hl : ∀ a ∈ l, Node.elem a ∉ r) :
    (l.foldl free f).Row r := by
  induction l generalizing f with
  | nil => exact h
  | cons a l ih =>
    exact ih (h.write (hl a List.mem_cons_self) none none) fun b hb => hl b (List.mem_cons_of_mem a hb)

omit [DecidableEq A] in
/-- What leads to the first node of a range, or to its end. -/
theorem next_range {l : List A} {e : Node A} {v : List (Node A)} {x : Node A}
    (h : f.Row (x :: (l.map .elem ++ e :: v))) : f.next x = (l.head?.map .elem).getD e := by
  cases l with
  | nil => exact DoubleLinks.Row.next_eq h
  | cons a l => exact DoubleLinks.Row.next_eq h

omit [DecidableEq A] in
/-- A pointer to the end of a range from its beginning is answered by one back. -/
theorem prev_of_next {l : List A} {e : Node A} {v : List (Node A)} {x : Node A}
    (h : f.Row (x :: (l.map .elem ++ e :: v))) (he : f.next x = some e) : f.prev e = some x := by
  obtain ⟨v', hv⟩ := Cache.next_of_part l e v
  rw [hv] at h
  have hj := DoubleLinks.Row.joined (u := []) h
  rw [Option.some.inj (he.symm.trans hj.next)]
  exact hj.prev

/-- The loop of `clear` visits and deletes the elements of its range. -/
theorem clearRange_eq {l : List A} {e : Node A} {v : List (Node A)} {i : Option (Node A)}
    (hi : i = some ((l.head?.map .elem).getD e)) (h : f.Row (l.map .elem ++ e :: v))
    (hd : (l.map Node.elem ++ e :: v).Nodup) {n : ℕ} (hn : l.length < n) :
    clearRange e n i f = some (l.foldl free f, clearElements l) := by
  induction l generalizing f i n with
  | nil =>
    cases n with
    | zero => cases hn
    | succ n =>
      subst hi
      exact if_pos rfl
  | cons a l ih =>
    cases n with
    | zero => cases hn
    | succ n =>
      subst hi
      obtain ⟨ha, hd'⟩ := List.nodup_cons.mp hd
      have hae : Node.elem a ≠ e := fun he => ha (by simp [he])
      have hrest := ih (next_range h) ((DoubleLinks.Row.tail h).write ha none none) hd'
        (Nat.lt_of_succ_lt_succ hn)
      show clearRange e (n + 1) (some (.elem a)) f = _
      rw [clearRange, if_neg hae]
      show (clearRange e n (f.next (.elem a)) (f.free a)).map _ = _
      rw [show clearRange e n (f.next (.elem a)) (f.free a) = _ from hrest]
      rfl

/-- Two sentinels are joined afterwards if a link from the first was answered before. -/
theorem joined_reset {x y : Node A} (h : f.next x = some y → f.prev y = some x) :
    (f.reset x y).Joined x y := by
  unfold reset
  split_ifs with hxy
  · exact ⟨DoubleLinks.next_setNext_self _, DoubleLinks.prev_setPrev_self _⟩
  · exact ⟨not_not.mp hxy, h (not_not.mp hxy)⟩

theorem next_reset {x y z : Node A} (h : z ≠ x) : (f.reset x y).next z = f.next z := by
  unfold reset
  split_ifs
  · exact DoubleLinks.next_setNext_of_ne h _
  · rfl

theorem prev_reset {x y z : Node A} (h : z ≠ y) : (f.reset x y).prev z = f.prev z := by
  unfold reset
  split_ifs
  · exact DoubleLinks.prev_setPrev_of_ne h _
  · rfl

/-- Behind the `if`s of `clear` the list is empty. -/
theorem row_reset (h₁ : f.next .head = some .separator → f.prev .separator = some .head)
    (h₂ : f.next .separator = some .tail → f.prev .tail = some .separator) :
    ((f.reset .head .separator).reset .separator .tail).Row [.head, .separator, .tail] := by
  have hj := joined_reset h₁
  refine List.isChain_cons_cons.mpr ⟨⟨?_, ?_⟩, List.isChain_pair.mpr (joined_reset fun h => ?_)⟩
  · exact (next_reset (show Node.head ≠ .separator from nofun)).trans hj.next
  · exact (prev_reset (show Node.separator ≠ .tail from nofun)).trans hj.prev
  · have hn := next_reset (f := f) (y := .separator) (show Node.separator ≠ .head from nofun)
    exact (prev_reset (show Node.tail ≠ .separator from nofun)).trans (h₂ (hn.symm.trans h))

/-- `clear`. -/
theorem Holds.clear (h : Holds f c) {n : ℕ} (hn : c.elems.length < n) :
    ∃ f', f.clear n = some (f', c.clear.2) ∧ Holds f' ({} : Cache A) ∧ Frame f f' c.elems := by
  have hd := Cache.nodes_nodup h.nodup
  have hlen : c.first.length < n ∧ c.second.length < n := by
    rw [Cache.elems, List.length_append] at hn
    omega
  -- the row behind `head_`, and the row behind `separator_`
  have hrow₁ := DoubleLinks.Row.tail h.row
  have hd₁ := (List.nodup_cons.mp hd).2
  have hrow₂ : f.Row (.separator :: (c.second.map .elem ++ [.tail])) := List.IsChain.right_of_append hrow₁
  obtain ⟨-, hd₂, hdisj⟩ := List.nodup_append.mp hd₁
  have hrow₂' : (c.first.foldl free f).Row (c.second.map .elem ++ [.tail]) :=
    row_free (DoubleLinks.Row.tail hrow₂) fun a ha hm =>
      hdisj _ (List.mem_map_of_mem ha) _ (List.mem_cons_of_mem _ hm) rfl
  have h₁ := clearRange_eq (next_range h.row) hrow₁ hd₁ hlen.1
  have h₂ := clearRange_eq (next_range hrow₂) hrow₂' (List.nodup_cons.mp hd₂).2 hlen.2
  have hg : ∀ x, (∀ a ∈ c.elems, x ≠ .elem a) →
      (c.second.foldl free (c.first.foldl free f)).next x = f.next x ∧
        (c.second.foldl free (c.first.foldl free f)).prev x = f.prev x := by
    intro x hx
    obtain ⟨hn₂, hp₂⟩ := fields_free (fun a ha => hx a (List.mem_append_right _ ha)) (c.first.foldl free f)
    obtain ⟨hn₁, hp₁⟩ := fields_free (fun a ha => hx a (List.mem_append_left _ ha)) f
    exact ⟨hn₂.trans hn₁, hp₂.trans hp₁⟩
  refine ⟨((c.second.foldl free (c.first.foldl free f)).reset .head .separator).reset .separator .tail,
    ?_, ⟨?_, List.nodup_nil⟩, fun a ha => ?_⟩
  · rw [PartitionedList.clear, begin, h₁]
    dsimp only
    rw [continuation, h₂]
    rfl
  · apply row_reset
    · rw [(hg .head nofun).1, (hg .separator nofun).2]
      exact prev_of_next h.row
    · rw [(hg .separator nofun).1, (hg .tail nofun).2]
      exact prev_of_next hrow₂
  · rw [next_reset (show Node.elem a ≠ .separator from nofun), next_reset (show Node.elem a ≠ .head from nofun)]
    refine (hg (.elem a) fun b hb he => ha ?_).1
    rw [Node.elem.inj he]
    exact hb

/-! ### The lists that the links hold -/

/-- The loops along the links of a row visit its two lists. -/
theorem Holds.represents (h : Holds f c) : Represents f c := by
  have hd := Cache.nodes_nodup h.nodup
  have hd₁ := (List.nodup_cons.mp hd).2
  obtain ⟨-, hd₂, hdisj⟩ := List.nodup_append.mp hd₁
  have hnot : ∀ (l : List A) (e : Node A), (∀ a, e ≠ .elem a) → e ∉ l.map Node.elem := by
    intro l e he hm
    obtain ⟨a, -, ha⟩ := List.mem_map.mp hm
    exact he a ha.symm
  have hrow₂ : f.Row (.separator :: (c.second.map .elem ++ [.tail])) :=
    List.IsChain.right_of_append (DoubleLinks.Row.tail h.row)
  -- the same rows from behind
  have hback : f.flip.Row (.tail :: (c.second.reverse.map .elem ++ .separator ::
      (c.first.reverse.map .elem ++ [.head]))) := by
    have hr := DoubleLinks.Row.flip h.row
    simpa [Cache.nodes] using hr
  have hback₁ : f.flip.Row (.separator :: (c.first.reverse.map .elem ++ [.head])) :=
    List.IsChain.right_of_append (DoubleLinks.Row.tail hback)
  refine ⟨fun n hn => ?_, fun n hn => ?_, fun n hn => ?_, fun n hn => ?_, ?_⟩
  · exact h.row.walk (hnot _ _ nofun) (by rwa [List.length_map])
  · exact hrow₂.walk (hnot _ _ nofun) (by rwa [List.length_map])
  · exact hback₁.walk (hnot _ _ nofun) (by rwa [List.length_map, List.length_reverse])
  · exact hback.walk (hnot _ _ nofun) (by rwa [List.length_map, List.length_reverse])
  · rw [empty, next_range h.row, next_range hrow₂]
    cases c.first <;> cases c.second <;> simp

/-- **One operation** has on the links the outcome it has on the lists, and writes to no other
elements. -/
theorem Holds.call (h : Holds f c) {op : Op A} (ha : c.Accepts op) {n : ℕ} (hn : c.elems.length < n) :
    ∃ f', f.call n op = some (f', (c.apply op).2) ∧ Holds f' (c.apply op).1 ∧
      Frame f f' (op.subject ++ c.elems) := by
  cases op with
  | insert next val =>
    obtain ⟨f', hf, h'⟩ := h.insert ha.1 ha.2
    exact ⟨f', by rw [PartitionedList.call, hf]; rfl, h'⟩
  | take pos =>
    obtain ⟨-, f', hf, h'⟩ := h.take ha
    exact ⟨f', by rw [PartitionedList.call, hf]; rfl, h'⟩
  | erase pos =>
    obtain ⟨f', hf, h'⟩ := h.erase ha
    exact ⟨f', by rw [PartitionedList.call, hf]; rfl, h'⟩
  | clear =>
    obtain ⟨f', hf, h'⟩ := h.clear hn
    exact ⟨f', by rw [PartitionedList.call, hf]; rfl, h'⟩
  | write a next prev =>
    refine ⟨_, rfl, h.write ha next prev, fun b hb => ?_⟩
    have hba : Node.elem b ≠ .elem a := fun he => hb (by simp [Op.subject, Node.elem.inj he])
    rw [DoubleLinks.next_setPrev, DoubleLinks.next_setNext_of_ne hba]

theorem holds_of_reachable (h : (system A).Reachable (f, c)) : Holds f c := by
  refine System.Reachable.invariant (I := fun s => Holds s.1 s.2) ?_ ?_ h
  · rintro _ ⟨f, rfl⟩
    exact holds_construct f
  · rintro ⟨f, c⟩ op s' hI hs
    simp only [system] at hs
    split_ifs at hs with ha
    obtain ⟨f', hf, h', -⟩ := hI.call ha (Nat.lt_succ_self _)
    rw [hf] at hs
    cases hs
    exact h'

/-- **The partitioned list is a pair of lists.** After any sequence of operations the loops
along the links visit two lists, forwards and backwards, and `empty` says whether there is
anything in them; each further operation returns what it returns for the lists, does to the
elements what it does for the lists, and leaves the links of the new lists behind. -/
theorem refines_lists (h : (system A).Reachable (f, c)) :
    Represents f c ∧ ∀ op, c.Accepts op → ∀ n, c.elems.length < n →
      ∃ f', f.call n op = some (f', (c.apply op).2) ∧ Represents f' (c.apply op).1 := by
  have hI := holds_of_reachable h
  refine ⟨hI.represents, fun op ha n hn => ?_⟩
  obtain ⟨f', hf, h', -⟩ := hI.call ha hn
  exact ⟨f', hf, h'.represents⟩

/-- A list in memory that holds nothing but null pointers. -/
def blank : PartitionedList ℕ := ⟨fun _ => none, fun _ => none⟩

/-- Four elements are inserted at all kinds of places, and one is taken; clearing the list
then visits and deletes the other three. -/
theorem refines_lists_four : ∃ f : PartitionedList ℕ,
    (system ℕ).Reachable (f, ⟨[2], [4, 3]⟩) ∧ ∃ f', f.call 4 .clear =
      some (f', ⟨none, [.visit 2, .delete 2, .visit 4, .delete 4, .visit 3, .delete 3]⟩) ∧
      Represents f' {} := by
  have hr : ∃ f : PartitionedList ℕ, (system ℕ).Reachable (f, ⟨[2], [4, 3]⟩) :=
    ⟨_, System.Reachable.of_actions (T := system ℕ) (s := (construct blank, {})) ⟨blank, rfl⟩
      [.insert .separator 1, .insert (.elem 1) 2, .insert .tail 3, .take 1,
        .write 1 none (some .head), .insert (.elem 3) 4] rfl⟩
  obtain ⟨f, hf⟩ := hr
  exact ⟨f, hf, (refines_lists hf).2 .clear trivial 4 (by decide)⟩

end PartitionedList

end ActorsFramework.Detail
