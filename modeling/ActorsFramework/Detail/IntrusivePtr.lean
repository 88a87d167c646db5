import Mathlib.Data.List.Count
import ActorsFramework.Lib.Tally

/-!
# Handles

`intrusive_ptr`: its member functions, and a thread that calls them on handles of
its own. A member function changes pointers, which only its thread sees, and adds
and releases references; what it does to the counts is the list of its `Effect`s,
in order, and that is what is left to do once the pointers have changed.

A thread owns a reference for each of its handles that is not null, for each it has
as a raw pointer (from `new` or `detach`), and for each it is about to release; it
owes those it is about to add. `starts_of_start` says that a member function that
begins changes neither its difference nor what others own. That is the whole of what
the counting of references rests on.
-/

namespace ActorsFramework.Detail.IntrusivePtr

open Lib

variable {H O : Type*}

/-- What a member function does to a reference count. -/
inductive Effect (O : Type*) where
  /-- `intrusive_ptr_add_ref`. -/
  | addRef (o : O)
  /-- `intrusive_ptr_release`. -/
  | release (o : O)
  deriving DecidableEq

/-- The object whose count is concerned. -/
def Effect.object : Effect O → O
  | .addRef o | .release o => o

/-! ### The member functions, on `ptr_` -/

/-- `set_ptr`. -/
def setPtr (rawPtr : Option O) (addRef : Bool) : Option O × List (Effect O) :=
  match rawPtr with
  | none => (none, [])
  | some o => (some o, if addRef then [.addRef o] else [])

/-- The destructor. -/
def destroy : Option O → List (Effect O)
  | none => []
  | some o => [.release o]

/-- `swap`: both pointers afterwards. -/
def swap (ptr other : Option O) : Option O × Option O := (other, ptr)

/-- `detach`: the result, and the pointer afterwards. -/
def detach : Option O → Option O × Option O
  | none => (none, none)
  | some o => (some o, none)

/-- `reset`. -/
def reset (old newValue : Option O) (addRef : Bool) : Option O × List (Effect O) :=
  let (ptr, es) := setPtr newValue addRef
  (ptr, es ++ destroy old)

/-- The copy constructor. -/
def copy (other : Option O) : Option O × List (Effect O) := setPtr other true

/-- The move constructor: the new pointer, and the other one afterwards. -/
def move (other : Option O) : Option O × Option O := detach other

/-- The constructor from a handle of another type, which it takes by value and destroys. -/
def convert (other : Option O) : Option O × List (Effect O) :=
  let (ptr, other) := detach other
  (ptr, destroy other)

/-- The assignment of a handle, which it takes by value and destroys. -/
def assign (ptr other : Option O) : Option O × List (Effect O) :=
  let (ptr, other) := swap ptr other
  (ptr, destroy other)

/-- The assignment of a raw pointer. -/
def assignRaw (old ptr : Option O) : Option O × List (Effect O) := reset old ptr true

/-! ### A thread -/

/-- A member function called on some of the thread's handles. -/
inductive Call (H O : Type*) where
  /-- `h` is constructed empty. -/
  | default (h : H)
  /-- `h` is constructed from a raw pointer. -/
  | fromRaw (h : H) (p : Option O) (addRef : Bool)
  /-- `h` is copied from `g`. -/
  | copy (h g : H)
  /-- `h` is moved from `g`. -/
  | move (h g : H)
  /-- `h` is constructed from `std::move(g)`, a handle of another type. -/
  | convert (h g : H)
  /-- `h` is constructed from `g`, a handle of another type. -/
  | convertCopy (h g : H)
  /-- `h = g`. -/
  | assign (h g : H)
  /-- `h = std::move(g)`. -/
  | assignMove (h g : H)
  /-- `h = p`. -/
  | assignRaw (h : H) (p : Option O)
  /-- `h.reset(p, addRef)`. -/
  | reset (h : H) (p : Option O) (addRef : Bool)
  /-- `h.swap(g)`. -/
  | swap (h g : H)
  /-- `h.detach()`, or `h.release()`. -/
  | detach (h : H)
  /-- `h` is destroyed. -/
  | destroy (h : H)
  deriving DecidableEq

/-- What a thread has. -/
structure Thread (H O : Type*) where
  /-- `ptr_` of each handle that exists. -/
  handle : H → Option (Option O) := fun _ => none
  /-- The references it owns as raw pointers. -/
  raw : O → ℕ := fun _ => 0
  /-- What is left of the member function under way. -/
  todo : List (Effect O) := []
  /-- In `deref`, `unique()` has been found false. -/
  shared : Bool := false

variable [DecidableEq H] [DecidableEq O]

namespace Thread

/-- A handle gets a pointer, or ceases to exist. -/
def set (th : Thread H O) (h : H) (p : Option (Option O)) : Thread H O :=
  { th with handle := Function.update th.handle h p }

/-- A raw pointer that owns its reference is handed over. -/
def disown (th : Thread H O) : Option O → Option (Thread H O)
  | none => some th
  | some o => if 0 < th.raw o then
      some { th with raw := Function.update th.raw o (th.raw o - 1) } else none

/-- A raw pointer that owns its reference is received. -/
def own (th : Thread H O) : Option O → Thread H O
  | none => th
  | some o => { th with raw := Function.update th.raw o (th.raw o + 1) }

variable [Fintype H]

/-- The thread has a reference to the object, in a handle or raw. -/
def Refers (th : Thread H O) (o : O) : Prop := (∃ h, th.handle h = some (some o)) ∨ 0 < th.raw o

instance (th : Thread H O) (o : O) : Decidable (th.Refers o) :=
  inferInstanceAs (Decidable ((∃ h, th.handle h = some (some o)) ∨ 0 < th.raw o))

/-- A raw pointer is passed: with `addRef`, to an object that the thread has a reference to;
without, it owns the reference that is handed over. -/
def pass (th : Thread H O) (p : Option O) (addRef : Bool) : Option (Thread H O) :=
  if addRef then
    match p with
    | none => some th
    | some o => if th.Refers o then some th else none
  else th.disown p

/-- A member function begins: the pointers change, and its effects on the counts are left. -/
def start (th : Thread H O) : Call H O → Option (Thread H O)
  | .default h =>
    match th.handle h with
    | none => some (th.set h (some none))
    | some _ => none
  | .fromRaw h p addRef =>
    match th.handle h, th.pass p addRef with
    | none, some th =>
      let (p, es) := setPtr p addRef
      some { th.set h (some p) with todo := es }
    | _, _ => none
  | .copy h g =>
    match th.handle h, th.handle g with
    | none, some q =>
      let (p, es) := IntrusivePtr.copy q
      some { th.set h (some p) with todo := es }
    | _, _ => none
  | .move h g =>
    match th.handle h, th.handle g with
    | none, some q =>
      let (p, q) := IntrusivePtr.move q
      some ((th.set h (some p)).set g (some q))
    | _, _ => none
  | .convert h g =>
    match th.handle h, th.handle g with
    | none, some q =>
      -- the parameter is moved from `g`
      let (other, q) := IntrusivePtr.move q
      let (p, es) := IntrusivePtr.convert other
      some { (th.set h (some p)).set g (some q) with todo := es }
    | _, _ => none
  | .convertCopy h g =>
    match th.handle h, th.handle g with
    | none, some q =>
      -- the parameter is copied from `g`
      let (other, es) := IntrusivePtr.copy q
      let (p, es') := IntrusivePtr.convert other
      some { th.set h (some p) with todo := es ++ es' }
    | _, _ => none
  | .assign h g =>
    match th.handle h, th.handle g with
    | some p, some q =>
      -- the parameter is copied from `g`
      let (other, es) := IntrusivePtr.copy q
      let (p, es') := IntrusivePtr.assign p other
      some { th.set h (some p) with todo := es ++ es' }
    | _, _ => none
  | .assignMove h g =>
    match th.handle h, th.handle g with
    | some _, some q =>
      -- the parameter is moved from `g`, which may be `h`
      let (other, q) := IntrusivePtr.move q
      let th := th.set g (some q)
      match th.handle h with
      | none => none
      | some p =>
        let (p, es) := IntrusivePtr.assign p other
        some { th.set h (some p) with todo := es }
    | _, _ => none
  | .assignRaw h p =>
    match th.handle h, th.pass p true with
    | some old, some th =>
      let (p, es) := IntrusivePtr.assignRaw old p
      some { th.set h (some p) with todo := es }
    | _, _ => none
  | .reset h p addRef =>
    match th.handle h, th.pass p addRef with
    | some old, some th =>
      let (p, es) := IntrusivePtr.reset old p addRef
      some { th.set h (some p) with todo := es }
    | _, _ => none
  | .swap h g =>
    match th.handle h, th.handle g with
    | some p, some q =>
      let (p, q) := IntrusivePtr.swap p q
      some ((th.set h (some p)).set g (some q))
    | _, _ => none
  | .detach h =>
    match th.handle h with
    | some p =>
      let (r, p) := IntrusivePtr.detach p
      some ((th.set h (some p)).own r)
    | none => none
  | .destroy h =>
    match th.handle h with
    | some p => some { th.set h none with todo := IntrusivePtr.destroy p }
    | none => none

/-! ### What a thread owns and owes -/

/-- `1` for a handle that points to the object. -/
def points (o : O) (p : Option (Option O)) : ℕ := if p = some (some o) then 1 else 0

/-- The references to the object that the thread owns. -/
def held (o : O) (th : Thread H O) : ℕ :=
  tally (points o) th.handle + th.raw o + th.todo.count (.release o)

/-- The references to the object that the thread is about to add. -/
def owed (o : O) (th : Thread H O) : ℕ := th.todo.count (.addRef o)

omit [DecidableEq H] [Fintype H] in
@[simp] theorem points_none (o : O) : points o none = 0 := rfl

omit [DecidableEq H] [Fintype H] in
@[simp] theorem points_null (o : O) : points o (some none) = 0 := rfl

/-- The additions of a reference to the object, if there is one. -/
def adds (p : Option O) : List (Effect O) := (setPtr p true).2

end Thread

open Thread

section Members

omit [DecidableEq H] [DecidableEq O]

theorem detach_eq (p : Option O) : detach p = (p, none) := by cases p <;> rfl

theorem convert_eq (p : Option O) : convert p = (p, []) := by cases p <;> rfl

theorem setPtr_true (p : Option O) : setPtr p true = (p, adds p) := by cases p <;> rfl

theorem setPtr_false (p : Option O) : setPtr p false = (p, []) := by cases p <;> rfl

theorem reset_true (old p : Option O) : reset old p true = (p, adds p ++ destroy old) := by
  rw [reset, setPtr_true]

theorem reset_false (old p : Option O) : reset old p false = (p, destroy old) := by
  rw [reset, setPtr_false]
  rfl

end Members

omit [DecidableEq H] in
theorem count_release_destroy (p : Option O) (o : O) :
    (destroy p).count (.release o) = points o (some p) := by
  cases p with
  | none => rfl
  | some q => simp [destroy, points, List.count_singleton]

omit [DecidableEq H] in
theorem count_addRef_destroy (p : Option O) (o : O) : (destroy p).count (.addRef o) = 0 := by
  cases p with
  | none => rfl
  | some q => simp [destroy]

omit [DecidableEq H] in
theorem count_release_adds (p : Option O) (o : O) : (adds p).count (.release o) = 0 := by
  cases p with
  | none => rfl
  | some q => simp [adds, setPtr]

omit [DecidableEq H] in
theorem count_addRef_adds (p : Option O) (o : O) :
    (adds p).count (.addRef o) = points o (some p) := by
  cases p with
  | none => rfl
  | some q => simp [adds, setPtr, points, List.count_singleton]

namespace Thread

variable [Fintype H] {th th' : Thread H O}

/-- A handle that changes is counted for its new pointer in place of its old one. -/
theorem pointing_set (th : Thread H O) (h : H) (p : Option (Option O)) (o : O) :
    tally (points o) (th.set h p).handle + points o (th.handle h) =
      tally (points o) th.handle + points o p :=
  tally_update (points o) th.handle h p

omit [DecidableEq H] [Fintype H] in
theorem raw_own (th : Thread H O) (p : Option O) (o : O) :
    (th.own p).raw o = th.raw o + points o (some p) := by
  cases p with
  | none => rfl
  | some q =>
    by_cases hq : o = q
    · subst hq
      simp [own, points]
    · simp [own, points, Function.update_of_ne hq, Ne.symm hq]

omit [DecidableEq H] [Fintype H] in
/-- Handing a raw pointer over gives its reference away, and nothing else changes. -/
theorem raw_disown {p : Option O} (h : th.disown p = some th') :
    th'.handle = th.handle ∧ th'.todo = th.todo ∧ th'.shared = th.shared ∧
      ∀ o, th'.raw o + points o (some p) = th.raw o := by
  cases p with
  | none =>
    cases h
    exact ⟨rfl, rfl, rfl, fun o => rfl⟩
  | some q =>
    simp only [disown] at h
    split_ifs at h with hq
    cases h
    refine ⟨rfl, rfl, rfl, fun o => ?_⟩
    by_cases ho : o = q
    · subst ho
      simp only [Function.update_self, points, if_pos]
      omega
    · simp [Function.update_of_ne ho, points, Ne.symm ho]

omit [DecidableEq H] in
/-- A thread that refers to an object owns a reference to it. -/
theorem Refers.held_pos {o : O} (h : th.Refers o) : 0 < th.held o := by
  unfold held
  rcases h with ⟨g, hg⟩ | h
  · have := le_tally (points o) th.handle g
    rw [hg, points, if_pos rfl] at this
    omega
  · omega

/-- What a member function that begins has to show: it adds at most one reference, to an
object that the thread has a reference to, then releases at most one; what the thread owns
grows by what it is about to add. -/
structure Starts (th th' : Thread H O) (new old : Option O) : Prop where
  /-- The effects. -/
  todo : th'.todo = adds new ++ destroy old
  /-- No release is under way. -/
  shared : th'.shared = th.shared
  /-- What is owned. -/
  held : ∀ o, th'.held o = th.held o + points o (some new)
  /-- The object is one that the thread has a reference to. -/
  source : ∀ o, new = some o → 0 < th.held o

omit [DecidableEq H] in
theorem Starts.owed {new old : Option O} (h : Starts th th' new old) (o : O) :
    th'.owed o = points o (some new) := by
  rw [Thread.owed, h.todo, List.count_append, count_addRef_adds, count_addRef_destroy]
  rfl

omit [DecidableEq H] in
/-- A thread that is to add a reference owns one more than those it owes. -/
theorem Starts.owed_lt {new old : Option O} (h : Starts th th' new old) {o : O}
    (ho : 0 < th'.owed o) : th'.owed o < th'.held o := by
  rw [h.owed] at ho ⊢
  rw [h.held]
  have hn : new = some o := by
    by_contra hne
    rw [points, if_neg fun he => hne (Option.some.inj he)] at ho
    exact absurd ho (Nat.lt_irrefl 0)
  have := h.source o hn
  omega

omit [DecidableEq H] in
/-- A thread that has a handle to an object owns a reference to it. -/
theorem held_pos_of_handle {g : H} {o : O} (h : th.handle g = some (some o)) : 0 < th.held o :=
  Refers.held_pos (.inl ⟨g, h⟩)

omit [DecidableEq H] in
/-- A raw pointer that is passed with `addRef` is one that the thread refers to. -/
theorem pass_true {p : Option O} (h : th.pass p true = some th') :
    th' = th ∧ ∀ o, p = some o → 0 < th.held o := by
  cases p with
  | none =>
    cases h
    exact ⟨rfl, nofun⟩
  | some q =>
    simp only [pass, if_pos] at h
    split_ifs at h with hr
    cases h
    exact ⟨rfl, fun o ho => Option.some.inj ho ▸ hr.held_pos⟩

/-- One handle gets another pointer, or begins or ceases to exist: a reference is added for
the new pointer, and the one for the old pointer is released. -/
theorem starts_set (ht : th.todo = []) (h : H) (ptr : Option (Option O)) (new old : Option O)
    (hold : ∀ o, points o (th.handle h) = points o (some old))
    (hnew : ∀ o, points o ptr = points o (some new)) (hs : ∀ o, new = some o → 0 < th.held o)
    (hth : { th.set h ptr with todo := adds new ++ destroy old } = th') : Starts th th' new old where
  todo := by rw [← hth]
  shared := by rw [← hth]; rfl
  source := hs
  held o := by
    have hp := pointing_set th h ptr o
    have ho := hold o
    have hn := hnew o
    subst hth
    show tally (points o) (th.set h ptr).handle + th.raw o + (adds new ++ destroy old).count _ =
      tally (points o) th.handle + th.raw o + th.todo.count _ + _
    rw [ht, List.count_append, count_release_adds, count_release_destroy, List.count_nil]
    omega

/-- One handle takes over a reference that was owned raw. -/
theorem starts_adopt (ht : th.todo = []) {th₁ : Thread H O} {p : Option O}
    (hd : th.disown p = some th₁) (h : H) (old : Option O)
    (hold : ∀ o, points o (th.handle h) = points o (some old))
    (hth : { th₁.set h (some p) with todo := destroy old } = th') : Starts th th' none old where
  todo := by rw [← hth]; rfl
  shared := by rw [← hth]; exact (raw_disown hd).2.2.1
  source := nofun
  held o := by
    obtain ⟨hh, -, -, hr⟩ := raw_disown hd
    have hp := pointing_set th₁ h (some p) o
    have hro := hr o
    have ho := hold o
    subst hth
    show tally (points o) (th₁.set h (some p)).handle + th₁.raw o + (destroy old).count _ =
      tally (points o) th.handle + th.raw o + th.todo.count _ + 0
    rw [hh] at hp
    rw [ht, count_release_destroy, List.count_nil]
    omega

/-- Pointers move between two handles, and one may be released. -/
theorem starts_move (ht : th.todo = []) (a b : H) (x y : Option (Option O)) (old : Option O)
    (hpoints : ∀ o, points o (th.handle a) + points o ((th.set a x).handle b) =
      points o x + points o y + points o (some old))
    (hth : { (th.set a x).set b y with todo := destroy old } = th') : Starts th th' none old where
  todo := by rw [← hth]; rfl
  shared := by rw [← hth]; rfl
  source := nofun
  held o := by
    have ha := pointing_set th a x o
    have hb := pointing_set (th.set a x) b y o
    have ho := hpoints o
    subst hth
    show tally (points o) ((th.set a x).set b y).handle + th.raw o + (destroy old).count _ =
      tally (points o) th.handle + th.raw o + th.todo.count _ + 0
    rw [ht, count_release_destroy, List.count_nil]
    omega

omit [DecidableEq O] [Fintype H] in
theorem set_ne {h g : H} (hg : g ≠ h) (p : Option (Option O)) :
    (th.set h p).handle g = th.handle g :=
  Function.update_of_ne hg _ _

omit [DecidableEq O] [Fintype H] in
/-- Setting handles leaves what is to be done alone. -/
theorem with_todo (ht : th.todo = []) (h g : H) (p q : Option (Option O)) :
    { (th.set h p).set g q with todo := [] } = (th.set h p).set g q := by
  rw [← ht]
  rfl

/-- `detach`: the pointer that the handle gives up is the caller's. -/
theorem starts_detach (ht : th.todo = []) {h : H} {p : Option O} (hh : th.handle h = some p) :
    Starts th ((th.set h (some none)).own p) none none := by
  have hto : ((th.set h (some none)).own p).todo = th.todo := by cases p <;> rfl
  have hsh : ((th.set h (some none)).own p).shared = th.shared := by cases p <;> rfl
  have hha : ((th.set h (some none)).own p).handle = (th.set h (some none)).handle := by
    cases p <;> rfl
  refine ⟨by rw [hto, ht]; rfl, hsh, fun o => ?_, nofun⟩
  have hp := pointing_set th h (some none) o
  have hr : ((th.set h (some none)).own p).raw o = th.raw o + points o (some p) := raw_own _ p o
  rw [hh] at hp
  rw [held, held, hto, hha, hr]
  simp only [points_null] at hp ⊢
  omega

/-- **What every member function does**: it starts with the thread owning just what it owned
and what it is about to add. -/
theorem starts_of_start (ht : th.todo = []) {c : Call H O} (hc : th.start c = some th') :
    ∃ new old, Starts th th' new old := by
  cases c with
  | default h =>
    simp only [start] at hc
    split at hc <;> cases hc
    next hh =>
    refine ⟨none, none, starts_set ht h (some none) none none (fun o => by rw [hh]; rfl)
      (fun o => rfl) nofun ?_⟩
    show { th.set h (some none) with todo := [] } = _
    rw [← ht]
    rfl
  | fromRaw h p addRef =>
    cases addRef with
    | true =>
      simp only [start, setPtr_true] at hc
      split at hc <;> cases hc
      next th₁ hh hp =>
      obtain ⟨rfl, hs⟩ := pass_true hp
      exact ⟨p, none, starts_set ht h _ p none (fun o => by rw [hh]; rfl) (fun o => rfl) hs
        (by rw [destroy, List.append_nil])⟩
    | false =>
      simp only [start, setPtr_false] at hc
      split at hc <;> cases hc
      next th₁ hh hp =>
      exact ⟨none, none, starts_adopt ht hp h none (fun o => by rw [hh]; rfl) rfl⟩
  | copy h g =>
    simp only [start, IntrusivePtr.copy, setPtr_true] at hc
    split at hc <;> cases hc
    next q hh hg =>
    exact ⟨q, none, starts_set ht h _ q none (fun o => by rw [hh]; rfl) (fun o => rfl)
      (fun o ho => held_pos_of_handle (ho ▸ hg)) (by rw [destroy, List.append_nil])⟩
  | convertCopy h g =>
    simp only [start, IntrusivePtr.copy, setPtr_true, convert_eq] at hc
    split at hc <;> cases hc
    next q hh hg =>
    exact ⟨q, none, starts_set ht h _ q none (fun o => by rw [hh]; rfl) (fun o => rfl)
      (fun o ho => held_pos_of_handle (ho ▸ hg)) rfl⟩
  | assign h g =>
    simp only [start, IntrusivePtr.copy, setPtr_true, IntrusivePtr.assign, IntrusivePtr.swap] at hc
    split at hc <;> cases hc
    next p q hh hg =>
    exact ⟨q, p, starts_set ht h _ q p (fun o => by rw [hh]) (fun o => rfl)
      (fun o ho => held_pos_of_handle (ho ▸ hg)) rfl⟩
  | assignRaw h p =>
    simp only [start, IntrusivePtr.assignRaw, reset_true] at hc
    split at hc <;> cases hc
    next old th₁ hh hp =>
    obtain ⟨rfl, hs⟩ := pass_true hp
    exact ⟨p, old, starts_set ht h _ p old (fun o => by rw [hh]) (fun o => rfl) hs rfl⟩
  | reset h p addRef =>
    cases addRef with
    | true =>
      simp only [start, reset_true] at hc
      split at hc <;> cases hc
      next old th₁ hh hp =>
      obtain ⟨rfl, hs⟩ := pass_true hp
      exact ⟨p, old, starts_set ht h _ p old (fun o => by rw [hh]) (fun o => rfl) hs rfl⟩
    | false =>
      simp only [start, reset_false] at hc
      split at hc <;> cases hc
      next old th₁ hh hp =>
      exact ⟨none, old, starts_adopt ht hp h old (fun o => by rw [hh]) rfl⟩
  | destroy h =>
    simp only [start] at hc
    split at hc <;> cases hc
    next p hh =>
    exact ⟨none, p, starts_set ht h none none p (fun o => by rw [hh]) (fun o => rfl) nofun rfl⟩
  | move h g =>
    simp only [start, IntrusivePtr.move, detach_eq] at hc
    split at hc <;> cases hc
    next q hh hg =>
    have hne : g ≠ h := fun he => by rw [he, hh] at hg; cases hg
    exact ⟨none, none, starts_move ht h g _ _ none (fun o => by rw [set_ne hne, hh, hg]; simp)
      (with_todo ht h g _ _)⟩
  | convert h g =>
    simp only [start, IntrusivePtr.move, detach_eq, convert_eq] at hc
    split at hc <;> cases hc
    next q hh hg =>
    have hne : g ≠ h := fun he => by rw [he, hh] at hg; cases hg
    exact ⟨none, none, starts_move ht h g _ _ none (fun o => by rw [set_ne hne, hh, hg]; simp) rfl⟩
  | assignMove h g =>
    simp only [start, IntrusivePtr.move, detach_eq, IntrusivePtr.assign, IntrusivePtr.swap] at hc
    split at hc
    next p q hh hg =>
      split at hc <;> cases hc
      next p' hp' =>
      exact ⟨none, p', starts_move ht g h _ _ p' (fun o => by rw [hg, hp']; simp) rfl⟩
    next => cases hc
  | swap h g =>
    simp only [start, IntrusivePtr.swap] at hc
    split at hc <;> cases hc
    next p q hh hg =>
    have hq : (th.set h (some q)).handle g = some q := by
      by_cases hgh : g = h
      · subst hgh
        exact Function.update_self ..
      · rw [set_ne hgh, hg]
    exact ⟨none, none, starts_move ht h g _ _ none
      (fun o => by rw [hq, hh, points_null, Nat.add_zero, Nat.add_comm]) (with_todo ht h g _ _)⟩
  | detach h =>
    simp only [start, detach_eq] at hc
    split at hc <;> cases hc
    next p hh =>
    exact ⟨none, none, starts_detach ht hh⟩

end Thread

end ActorsFramework.Detail.IntrusivePtr
