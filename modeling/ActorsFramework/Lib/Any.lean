import Mathlib.Data.List.FinRange

/-!
# Values of C++ types, `std::tuple` and `std::any`

A small universe of object types: arbitrary basic types, `std::any`, the tuples
and the tags `std::in_place_type_t`. A value of type `std::any` is nothing, or a
value together with its type; `any_cast` gives the value back to whoever names
the type it was put in with.

`std::any`'s constructor stores its argument as it is, with two exceptions: another
`any` is copied, not wrapped, and the tag `in_place_type_t<T>` makes it construct
a `T`.
-/

namespace ActorsFramework.Lib

universe u v

/-- The object types over some basic types. -/
inductive Ty (B : Type u) where
  /-- A basic type. -/
  | base (b : B)
  /-- `std::any`. -/
  | any
  /-- `std::tuple` of these types. -/
  | tuple (ts : List (Ty B))
  /-- `std::in_place_type_t` of this type. -/
  | inPlaceType (t : Ty B)

namespace Ty

variable {B : Type u} [DecidableEq B]

mutual

/-- Equality of types can be decided. -/
def decEq : (s t : Ty B) → Decidable (s = t)
  | .base b, .base c => decidable_of_iff (b = c) ⟨congrArg _, fun h => Ty.base.inj h⟩
  | .any, .any => isTrue rfl
  | .tuple ss, .tuple ts =>
    have := decEqs ss ts
    decidable_of_iff (ss = ts) ⟨congrArg _, fun h => Ty.tuple.inj h⟩
  | .inPlaceType s, .inPlaceType t =>
    have := decEq s t
    decidable_of_iff (s = t) ⟨congrArg _, fun h => Ty.inPlaceType.inj h⟩
  | .base _, .any | .base _, .tuple _ | .base _, .inPlaceType _ => isFalse nofun
  | .any, .base _ | .any, .tuple _ | .any, .inPlaceType _ => isFalse nofun
  | .tuple _, .base _ | .tuple _, .any | .tuple _, .inPlaceType _ => isFalse nofun
  | .inPlaceType _, .base _ | .inPlaceType _, .any | .inPlaceType _, .tuple _ => isFalse nofun

/-- Equality of lists of types can be decided. -/
def decEqs : (ss ts : List (Ty B)) → Decidable (ss = ts)
  | [], [] => isTrue rfl
  | [], _ :: _ | _ :: _, [] => isFalse nofun
  | s :: ss, t :: ts =>
    have := decEq s t
    have := decEqs ss ts
    decidable_of_iff (s = t ∧ ss = ts) ⟨fun ⟨h, h'⟩ => h ▸ h' ▸ rfl, fun h => List.cons.inj h⟩

end

instance : DecidableEq (Ty B) := decEq

end Ty

variable {B : Type u} (El : B → Type v)

mutual

/-- A value of a type, where `El` gives the values of the basic types. -/
inductive Val : Ty B → Type (max u v) where
  /-- A value of a basic type. -/
  | base {b : B} (x : El b) : Val (.base b)
  /-- A tuple. -/
  | tuple {ts : List (Ty B)} (xs : Vals ts) : Val (.tuple ts)
  /-- An `any` that holds nothing. -/
  | noValue : Val .any
  /-- An `any` that holds this value. -/
  | holding {t : Ty B} (x : Val t) : Val .any
  /-- The only value of a tag. -/
  | inPlaceType {t : Ty B} : Val (.inPlaceType t)

/-- A value of each type of a list, in order. -/
inductive Vals : List (Ty B) → Type (max u v) where
  | nil : Vals []
  | cons {t : Ty B} {ts : List (Ty B)} (x : Val t) (xs : Vals ts) : Vals (t :: ts)

end

variable {El}

/-- `std::get`. -/
def Vals.get : {ts : List (Ty B)} → Vals El ts → (i : Fin ts.length) → Val El (ts.get i)
  | _ :: _, .cons x _, ⟨0, _⟩ => x
  | _ :: _, .cons _ xs, ⟨i + 1, h⟩ => xs.get ⟨i, Nat.lt_of_succ_lt_succ h⟩

/-- The pack expansion `std::get<I>(xs)...` over an index sequence. -/
def Vals.gets {ts : List (Ty B)} (xs : Vals El ts) :
    (is : List (Fin ts.length)) → Vals El (is.map ts.get)
  | [] => .nil
  | i :: is => .cons (xs.get i) (xs.gets is)

mutual

/-- A value-initialised object. -/
def Val.init [∀ b, Inhabited (El b)] : (t : Ty B) → Val El t
  | .base _ => .base default
  | .any => .noValue
  | .tuple ts => .tuple (Vals.init ts)
  | .inPlaceType _ => .inPlaceType

/-- Value-initialised objects. -/
def Vals.init [∀ b, Inhabited (El b)] : (ts : List (Ty B)) → Vals El ts
  | [] => .nil
  | t :: ts => .cons (Val.init t) (Vals.init ts)

end

/-- `std::any`'s constructor from one argument. -/
def Val.toAny [∀ b, Inhabited (El b)] : {t : Ty B} → Val El t → Val El .any
  | .any, x => x
  | .inPlaceType t, _ => .holding (Val.init t)
  | .base _, x => .holding x
  | .tuple _, x => .holding x

/-- `has_value`. -/
def Val.hasValue : Val El .any → Bool
  | .noValue => false
  | .holding _ => true

/-- `any_cast` to a reference: nothing where it throws `bad_any_cast`. -/
def Val.anyCast [DecidableEq B] (t : Ty B) : Val El .any → Option (Val El t)
  | .noValue => none
  | .holding (t := s) x => if h : s = t then some (h ▸ x) else none

/-- The type is one whose values `any`'s constructor stores as they are. -/
def Ty.Stored (t : Ty B) : Prop := t ≠ .any ∧ ∀ s, t ≠ .inPlaceType s

theorem Val.toAny_of_stored [∀ b, Inhabited (El b)] {t : Ty B} (h : t.Stored) (x : Val El t) :
    x.toAny = .holding x := by
  cases t with
  | base b => rfl
  | tuple ts => rfl
  | any => exact absurd rfl h.1
  | inPlaceType s => exact absurd rfl (h.2 s)

theorem Val.anyCast_holding [DecidableEq B] {t : Ty B} (x : Val El t) :
    Val.anyCast t (.holding x) = some x := by
  rw [Val.anyCast, dif_pos rfl]

theorem Val.anyCast_of_ne [DecidableEq B] {s t : Ty B} (h : s ≠ t) (x : Val El s) :
    Val.anyCast t (.holding x) = none := by
  rw [Val.anyCast, dif_neg h]

/-- Packs of equal types and values stay so with one more value in front. -/
theorem Vals.cons_congr {t : Ty B} {ss ts : List (Ty B)} {xs : Vals El ss} {ys : Vals El ts}
    (x : Val El t) (h : (⟨ss, xs⟩ : Σ ts, Vals El ts) = ⟨ts, ys⟩) :
    (⟨t :: ss, .cons x xs⟩ : Σ ts, Vals El ts) = ⟨t :: ts, .cons x ys⟩ := by
  cases h
  rfl

/-- Expanding over the indices of the tail of a pack is expanding over the tail. -/
theorem Vals.gets_succ {t : Ty B} {ts : List (Ty B)} (x : Val El t) (xs : Vals El ts)
    (is : List (Fin ts.length)) :
    (⟨_, (Vals.cons x xs).gets (is.map Fin.succ)⟩ : Σ ts, Vals El ts) = ⟨_, xs.gets is⟩ := by
  induction is with
  | nil => rfl
  | cons i is ih => exact cons_congr (xs.get i) ih

/-- **A pack expanded over all its indices is the pack.** -/
theorem Vals.gets_finRange {ts : List (Ty B)} (xs : Vals El ts) :
    (⟨_, xs.gets (List.finRange ts.length)⟩ : Σ ts, Vals El ts) = ⟨ts, xs⟩ := by
  induction ts with
  | nil => cases xs; rfl
  | cons t ts ih =>
    cases xs with
    | cons x xs =>
      show (⟨_, (Vals.cons x xs).gets (List.finRange (ts.length + 1))⟩ : Σ ts, Vals El ts) = _
      rw [List.finRange_succ]
      exact cons_congr x ((gets_succ x xs (List.finRange ts.length)).trans (ih xs))

end ActorsFramework.Lib
