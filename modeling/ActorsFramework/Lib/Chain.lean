import Mathlib.Data.List.Nodup
import Mathlib.Logic.Function.Basic

/-!
# Chains of links

Objects of `A` are linked by a field that holds a pointer, a value of `L`. Some
pointers lead to an object (`node a`), one of them (`stop`) ends a chain, and
there may be others that lead nowhere. `Chain K next p l` says that following
the field from `p` visits exactly the objects `l`, in order, and ends at `stop`;
so a chain meets no pointer of the third kind. A chain depends only on the
fields of the objects it visits: a write to another object's field leaves it as
it was (`Chain.update`). To join two chains is to write the field of the last
object of the first (`Chain.splice`).
-/

namespace ActorsFramework.Lib

variable {A L : Type*}

/-- Pointers `L` to objects `A`. -/
structure Links (A L : Type*) where
  /-- The pointer to an object. -/
  node : A → L
  /-- The pointer that ends a chain. -/
  stop : L
  /-- Different objects have different pointers. -/
  node_inj : Function.Injective node
  /-- The end is not an object. -/
  node_ne_stop : ∀ a, node a ≠ stop

/-- Following `next` from a pointer visits the objects of a list in order, and ends. -/
inductive Chain (K : Links A L) (next : A → L) : L → List A → Prop where
  /-- The chain has ended. -/
  | nil : Chain K next K.stop []
  /-- At an object; its field leads on. -/
  | cons {a : A} {l : List A} : Chain K next (next a) l → Chain K next (K.node a) (a :: l)

namespace Chain

variable {K : Links A L} {next : A → L} {p : L} {a : A} {l l' : List A}

theorem nil_iff : Chain K next p [] ↔ p = K.stop :=
  ⟨fun h => by cases h; rfl, fun h => h ▸ .nil⟩

theorem cons_iff : Chain K next p (a :: l) ↔ p = K.node a ∧ Chain K next (next a) l :=
  ⟨fun h => by cases h with | cons h => exact ⟨rfl, h⟩, fun ⟨hp, h⟩ => hp ▸ .cons h⟩

theorem stop_iff : Chain K next K.stop l ↔ l = [] := by
  constructor
  · intro h
    cases l with
    | nil => rfl
    | cons a l => exact absurd (cons_iff.mp h).1.symm (K.node_ne_stop a)
  · rintro rfl
    exact .nil

theorem node_iff : Chain K next (K.node a) l ↔ ∃ l', l = a :: l' ∧ Chain K next (next a) l' := by
  constructor
  · intro h
    cases l with
    | nil => exact absurd (nil_iff.mp h) (K.node_ne_stop a)
    | cons b l =>
      obtain ⟨hab, h⟩ := cons_iff.mp h
      obtain rfl := K.node_inj hab
      exact ⟨l, rfl, h⟩
  · rintro ⟨l', rfl, h⟩
    exact .cons h

/-- A chain reads only the fields of the objects it visits. -/
theorem congr {next' : A → L} (h : Chain K next p l) (hn : ∀ b ∈ l, next' b = next b) :
    Chain K next' p l := by
  induction h with
  | nil => exact .nil
  | @cons b m _ ih =>
    refine .cons ?_
    rw [hn b List.mem_cons_self]
    exact ih fun c hc => hn c (List.mem_cons_of_mem _ hc)

variable [DecidableEq A]

/-- A write to the field of an object outside the chain leaves the chain as it was. -/
theorem update (h : Chain K next p l) (ha : a ∉ l) (q : L) :
    Chain K (Function.update next a q) p l := by
  refine h.congr fun b hb => Function.update_of_ne ?_ _ _
  rintro rfl
  exact ha hb

/-- Put an object in front of a chain by writing its field. -/
theorem push (h : Chain K next p l) (ha : a ∉ l) :
    Chain K (Function.update next a p) (K.node a) (a :: l) := by
  refine .cons ?_
  rw [Function.update_self]
  exact h.update ha p

/-- Move the first object of one chain to the front of another. -/
theorem relink (h : Chain K next (K.node a) (a :: l)) (h' : Chain K next p l') (hl : a ∉ l)
    (hl' : a ∉ l') :
    Chain K (Function.update next a p) (next a) l ∧
      Chain K (Function.update next a p) (K.node a) (a :: l') :=
  ⟨(cons_iff.mp h).2.update hl p, h'.push hl'⟩

/-- Write the pointer to one chain into the last object of another: the two are joined. -/
theorem splice {q : L} (h : Chain K next p (l ++ [a])) (h' : Chain K next q l') (hl : a ∉ l)
    (hl' : a ∉ l') : Chain K (Function.update next a q) p (l ++ a :: l') := by
  induction l generalizing p with
  | nil =>
    obtain ⟨rfl, -⟩ := cons_iff.mp h
    exact h'.push hl'
  | cons b l ih =>
    obtain ⟨hba, hl⟩ := List.ne_and_not_mem_of_not_mem_cons hl
    obtain ⟨rfl, hnext⟩ := cons_iff.mp h
    refine .cons ?_
    rw [Function.update_of_ne hba.symm]
    exact ih hnext hl

end Chain

end ActorsFramework.Lib
