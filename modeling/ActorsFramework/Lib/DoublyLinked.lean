import Mathlib.Data.List.Chain
import Mathlib.Data.List.Nodup
import Mathlib.Logic.Function.Basic

/-!
# Rows of doubly linked objects

Objects of `N` have two link fields, `next` and `prev`. `Row f l` says that the
objects of `l` are linked in this order, in both directions; the fields at the
two ends of a row may hold anything. To put an object into a row, or to take one
out, is to write the links on both sides (`Row.insert`, `Row.remove`); a loop
along either field visits the objects of a row in order (`Row.walk`, `Row.flip`).
-/

namespace ActorsFramework.Lib

/-- The link fields of objects; `none` is a null pointer. -/
structure DoubleLinks (N : Type*) where
  /-- The object behind. -/
  next : N → Option N
  /-- The object in front. -/
  prev : N → Option N

/-- The loop from the iterator `i` to the object `e`, along one of the fields: the objects it
visits. It fails on a null pointer, and when it has not come to its end after `n` tests. -/
def walk {N : Type*} [DecidableEq N] (field : N → Option N) (e : N) : ℕ → Option N → Option (List N)
  | 0, _ => none
  | _ + 1, none => none
  | n + 1, some x => if x = e then some [] else (walk field e n (field x)).map (x :: ·)

namespace DoubleLinks

variable {N : Type*} {f g : DoubleLinks N} {l u v : List N} {x y z e : N}

/-- `y` is right behind `x`: each leads to the other. -/
structure Joined (f : DoubleLinks N) (x y : N) : Prop where
  next : f.next x = some y
  prev : f.prev y = some x

/-- The objects are linked in this order. -/
def Row (f : DoubleLinks N) (l : List N) : Prop := l.IsChain f.Joined

/-- The other direction. -/
def flip (f : DoubleLinks N) : DoubleLinks N := ⟨f.prev, f.next⟩

/-- A row, seen from its other end. -/
theorem Row.flip (h : f.Row l) : f.flip.Row l.reverse := by
  apply List.isChain_reverse.mpr
  exact h.imp fun a b hab => ⟨hab.prev, hab.next⟩

theorem Row.next_eq (h : f.Row (x :: y :: l)) : f.next x = some y :=
  (List.isChain_cons_cons.mp h).1.next

theorem Row.tail (h : f.Row (x :: l)) : f.Row l := List.IsChain.tail h

/-- An object in the middle of a row is joined with the one behind it. -/
theorem Row.joined (h : f.Row (u ++ x :: y :: v)) : f.Joined x y :=
  (List.isChain_append_cons_cons.mp h).2.1

/-- What is in front of an object of a row is in the row. -/
theorem Row.prev_mem (h : f.Row l) (hz : z ∈ l.tail) (hp : f.prev z = some x) : x ∈ l := by
  induction l with
  | nil => cases hz
  | cons a l ih =>
    cases l with
    | nil => cases hz
    | cons b l =>
      obtain ⟨hab, hl⟩ := List.isChain_cons_cons.mp h
      rcases List.mem_cons.mp hz with rfl | hz
      · obtain rfl : a = x := Option.some.inj (hab.prev.symm.trans hp)
        exact List.mem_cons_self
      · exact List.mem_cons_of_mem a (ih hl hz)

/-- A row depends on the `next` of all objects but the last, and on the `prev` of all but
the first. -/
theorem Row.congr (h : f.Row l) (hn : ∀ a ∈ l.dropLast, g.next a = f.next a)
    (hp : ∀ b ∈ l.tail, g.prev b = f.prev b) : g.Row l := by
  induction l with
  | nil => exact List.isChain_nil
  | cons a l ih =>
    cases l with
    | nil => exact List.isChain_singleton a
    | cons b l =>
      obtain ⟨hab, hl⟩ := List.isChain_cons_cons.mp h
      refine List.isChain_cons_cons.mpr ⟨⟨?_, ?_⟩, ?_⟩
      · rw [hn a List.mem_cons_self, hab.next]
      · rw [hp b List.mem_cons_self, hab.prev]
      · refine ih hl (fun c hc => hn c (List.mem_cons_of_mem _ hc)) fun c hc => hp c ?_
        exact List.mem_cons_of_mem _ hc

/-- The two rows that a write between `x` and `y` leaves alone: it writes no `next` but that
of `x` and no `prev` but that of `y` in them. -/
theorem Row.sides (hu : f.Row (u ++ [x])) (hv : f.Row (y :: v)) (hd : (u ++ x :: y :: v).Nodup)
    (hn : ∀ a, a ≠ x → a ∈ u ++ x :: y :: v → g.next a = f.next a)
    (hp : ∀ b, b ≠ y → b ∈ u ++ x :: y :: v → g.prev b = f.prev b) :
    g.Row (u ++ [x]) ∧ g.Row (y :: v) := by
  obtain ⟨-, hxy, huv⟩ := List.nodup_append.mp hd
  obtain ⟨hx, hy⟩ := List.nodup_cons.mp hxy
  obtain ⟨hyv, -⟩ := List.nodup_cons.mp hy
  constructor
  · refine hu.congr (fun a ha => ?_) fun b hb => ?_
    · rw [List.dropLast_concat] at ha
      refine hn a ?_ (List.mem_append_left _ ha)
      exact huv a ha x List.mem_cons_self
    · have hb := List.mem_of_mem_tail hb
      rcases List.mem_append.mp hb with hb | hb
      · exact hp b (huv b hb y (by simp)) (List.mem_append_left _ hb)
      · rw [List.mem_singleton.mp hb]
        exact hp x (fun he => hx (he ▸ List.mem_cons_self)) (by simp)
  · refine hv.congr (fun a ha => ?_) fun b hb => ?_
    · have ha : a ∈ y :: v := List.dropLast_subset _ ha
      refine hn a ?_ (by simp [List.mem_cons.mp ha])
      rintro rfl
      exact hx ha
    · refine hp b ?_ (by simp [show b ∈ v from hb])
      rintro rfl
      exact hyv hb

variable [DecidableEq N]

/-- A row is what the loop along `next` visits. -/
theorem Row.walk (h : f.Row (x :: (l ++ e :: v))) (he : e ∉ l) {n : ℕ} (hn : l.length < n) :
    walk f.next e n (f.next x) = some l := by
  induction l generalizing x n with
  | nil =>
    cases n with
    | zero => cases hn
    | succ n =>
      rw [Row.next_eq h, Lib.walk, if_pos rfl]
  | cons y l ih =>
    cases n with
    | zero => cases hn
    | succ n =>
      obtain ⟨hey, hel⟩ := not_or.mp (mt List.mem_cons.mpr he)
      rw [Row.next_eq h, Lib.walk, if_neg (Ne.symm hey), ih (Row.tail h) hel (Nat.lt_of_succ_lt_succ hn)]
      rfl

/-- A `next` field is written. -/
def setNext (f : DoubleLinks N) (x : N) (p : Option N) : DoubleLinks N :=
  { f with next := Function.update f.next x p }

/-- A `prev` field is written. -/
def setPrev (f : DoubleLinks N) (x : N) (p : Option N) : DoubleLinks N :=
  { f with prev := Function.update f.prev x p }

@[simp] theorem next_setPrev (p : Option N) : (f.setPrev x p).next = f.next := rfl
@[simp] theorem prev_setNext (p : Option N) : (f.setNext x p).prev = f.prev := rfl

theorem next_setNext_self (p : Option N) : (f.setNext x p).next x = p := Function.update_self ..
theorem prev_setPrev_self (p : Option N) : (f.setPrev x p).prev x = p := Function.update_self ..

theorem next_setNext_of_ne (h : y ≠ x) (p : Option N) : (f.setNext x p).next y = f.next y :=
  Function.update_of_ne h _ _

theorem prev_setPrev_of_ne (h : y ≠ x) (p : Option N) : (f.setPrev x p).prev y = f.prev y :=
  Function.update_of_ne h _ _

/-- A write to the fields of an object outside a row leaves the row as it was. -/
theorem Row.write (h : f.Row l) (hz : z ∉ l) (p q : Option N) : ((f.setNext z p).setPrev z q).Row l := by
  refine h.congr (fun a ha => ?_) fun b hb => ?_
  · rw [next_setPrev, next_setNext_of_ne]
    rintro rfl
    exact hz (List.dropLast_subset _ ha)
  · rw [prev_setPrev_of_ne, prev_setNext]
    rintro rfl
    exact hz (List.mem_of_mem_tail hb)

/-- The links of `z` are written, and those on both sides of it. -/
def insert (f : DoubleLinks N) (x z y : N) : DoubleLinks N :=
  (((f.setPrev z (some x)).setNext z (some y)).setNext x (some z)).setPrev y (some z)

/-- The links on both sides of what was between `x` and `y` are written. -/
def bypass (f : DoubleLinks N) (x y : N) : DoubleLinks N :=
  (f.setNext x (some y)).setPrev y (some x)

/-- **An object is put between two objects of a row.** -/
theorem Row.insert (h : f.Row (u ++ x :: y :: v)) (hd : (u ++ x :: y :: v).Nodup)
    (hz : z ∉ u ++ x :: y :: v) : (f.insert x z y).Row (u ++ x :: z :: y :: v) := by
  obtain ⟨hu, -, hv⟩ := List.isChain_append_cons_cons.mp h
  have hzx : z ≠ x := fun he => hz (by simp [he])
  have hzy : z ≠ y := fun he => hz (by simp [he])
  obtain ⟨hu', hv'⟩ := Row.sides (g := f.insert x z y) hu hv hd
    (fun a hax ha => by
      have haz : a ≠ z := fun he => hz (he ▸ ha)
      rw [DoubleLinks.insert, next_setPrev, next_setNext_of_ne hax, next_setNext_of_ne haz, next_setPrev])
    (fun b hby hb => by
      have hbz : b ≠ z := fun he => hz (he ▸ hb)
      rw [DoubleLinks.insert, prev_setPrev_of_ne hby, prev_setNext, prev_setNext, prev_setPrev_of_ne hbz])
  refine List.isChain_append_cons_cons.mpr ⟨hu', ⟨?_, ?_⟩, List.isChain_cons_cons.mpr ⟨⟨?_, ?_⟩, hv'⟩⟩
  · rw [DoubleLinks.insert, next_setPrev, next_setNext_self]
  · rw [DoubleLinks.insert, prev_setPrev_of_ne hzy, prev_setNext, prev_setNext, prev_setPrev_self]
  · rw [DoubleLinks.insert, next_setPrev, next_setNext_of_ne hzx, next_setNext_self]
  · rw [DoubleLinks.insert, prev_setPrev_self]

/-- **An object is taken out of a row.** -/
theorem Row.remove (h : f.Row (u ++ x :: z :: y :: v)) (hd : (u ++ x :: z :: y :: v).Nodup) :
    (f.bypass x y).Row (u ++ x :: y :: v) := by
  obtain ⟨hu, -, hv⟩ := List.isChain_append_cons_cons.mp h
  have hd' : (u ++ x :: y :: v).Nodup :=
    hd.sublist (((List.sublist_cons_self z (y :: v)).cons_cons x).append_left u)
  obtain ⟨hu', hv'⟩ := Row.sides (g := f.bypass x y) hu (Row.tail hv) hd'
    (fun a hax _ => by rw [bypass, next_setPrev, next_setNext_of_ne hax])
    (fun b hby _ => by rw [bypass, prev_setPrev_of_ne hby, prev_setNext])
  refine List.isChain_append_cons_cons.mpr ⟨hu', ⟨?_, ?_⟩, hv'⟩
  · rw [bypass, next_setPrev, next_setNext_self]
  · rw [bypass, prev_setPrev_self]

end DoubleLinks

end ActorsFramework.Lib
