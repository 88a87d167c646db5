import ActorsFramework.Lib.Transition
import ActorsFramework.Detail.IntrusivePtr

/-!
# The counting of references

`ref_counted` under any number of threads that call the member functions of their
handles, one access to `rc_` at a time. `deref` deletes on two paths: `unique()`
finds the count at one and leaves it there, or `fetch_sub` takes it from one to
zero; between the two accesses other threads may do anything.

What a thread owns less what it owes (`spare`) is what it can give up without
having taken anything from the others. `Inv`: while an object lives, `rc_` is the
sum of what the threads have to spare. A thread at a release has something to
spare, so when it finds the count at one nobody else owns anything
(`Inv.last`), on either path.
-/

namespace ActorsFramework.Detail.RefCounted

open Lib IntrusivePtr Thread

variable {τ H O : Type*}

/-- The objects, and the threads. The names of handles are finitely many, as a run uses no
more. -/
structure State (τ H O : Type*) where
  /-- `rc_` of each object. -/
  rc : O → ℕ := fun _ => 0
  /-- The objects that have been created. -/
  created : O → Bool := fun _ => false
  /-- How often each was deleted. -/
  deletions : O → ℕ := fun _ => 0
  /-- The threads. -/
  thread : τ → Thread H O := fun _ => {}

/-- A step of a thread. -/
inductive Action (τ H O : Type*) where
  /-- `new`, whose result the thread owns. -/
  | create (t : τ) (o : O)
  /-- A member function begins. -/
  | start (t : τ) (c : Call H O)
  /-- The next access to an `rc_` of the member function under way. -/
  | access (t : τ)
  /-- `get_reference_count`, or `unique`, through a handle. -/
  | getReferenceCount (t : τ) (h : H)
  /-- A raw pointer and its reference go to another thread. -/
  | give (t u : τ) (o : O)
  deriving DecidableEq

namespace State

variable [DecidableEq τ]

/-- One thread changes. -/
def put (s : State τ H O) (t : τ) (th : Thread H O) : State τ H O :=
  { s with thread := Function.update s.thread t th }

variable [DecidableEq O]

/-- An `rc_` is written. -/
def count (s : State τ H O) (o : O) (n : ℕ) : State τ H O :=
  { s with rc := Function.update s.rc o n }

/-- `delete this`. -/
def delete (s : State τ H O) (o : O) : State τ H O :=
  { s with deletions := Function.update s.deletions o (s.deletions o + 1) }

/-- The object can be accessed. -/
def Alive (s : State τ H O) (o : O) : Prop := s.created o = true ∧ s.deletions o = 0

/-- The references to the object that are owned. -/
def owned [Fintype τ] [Fintype H] (s : State τ H O) (o : O) : ℕ := tally (held o) s.thread

/-- The object whose `rc_` an action accesses. -/
def touches (s : State τ H O) : Action τ H O → Option O
  | .access t => (s.thread t).todo.head?.map Effect.object
  | .getReferenceCount t h => ((s.thread t).handle h).join
  | _ => none

variable [DecidableEq H] [Fintype H]

/-- What an action does. Nothing here asks whether an object is alive. -/
def step (s : State τ H O) : Action τ H O → Option (State τ H O)
  | .create t o =>
    if s.created o = false ∧ (s.thread t).todo = [] then
      some { s.put t ((s.thread t).own (some o)) with
        rc := Function.update s.rc o 1
        created := Function.update s.created o true }
    else none
  | .start t c =>
    if (s.thread t).todo = [] then ((s.thread t).start c).map (s.put t) else none
  | .access t =>
    match (s.thread t).todo with
    | [] => none
    | .addRef o :: es => some ((s.put t { s.thread t with todo := es }).count o (s.rc o + 1))
    | .release o :: es =>
      match (s.thread t).shared with
      -- `unique()`
      | false =>
        if s.rc o = 1 then some ((s.put t { s.thread t with todo := es }).delete o)
        else some (s.put t { s.thread t with shared := true })
      -- `fetch_sub`
      | true =>
        let s' := (s.put t { s.thread t with todo := es, shared := false }).count o (s.rc o - 1)
        some (if s.rc o = 1 then s'.delete o else s')
  | .getReferenceCount t h =>
    match (s.thread t).todo, (s.thread t).handle h with
    | [], some (some _) => some s
    | _, _ => none
  | .give t u o =>
    if (s.thread t).todo = [] ∧ t ≠ u then
      ((s.thread t).disown (some o)).map fun th =>
        (s.put t th).put u ((s.thread u).own (some o))
    else none

end State

/-- The threads begin with no handles, and there are no objects. -/
def refCounting (τ H O : Type*) [DecidableEq τ] [DecidableEq H] [Fintype H] [DecidableEq O] :
    System (State τ H O) (Action τ H O) where
  Init s := s = {}
  step := State.step

/-! ### What a thread has to spare -/

variable [DecidableEq O] [Fintype H]

/-- What the thread owns less what it owes. -/
def spare (o : O) (th : Thread H O) : ℕ := th.held o - th.owed o

/-- A thread in the course of a member function: what is left of it adds at most one
reference, to an object that the thread owns a reference to anyway, and then releases at
most one. -/
structure Sound (th : Thread H O) : Prop where
  /-- The effects left. -/
  todo : ∃ new old, th.todo = adds new ++ destroy old
  /-- What is owed does not use up what is owned. -/
  owed_lt : ∀ o, 0 < th.owed o → th.owed o < th.held o

namespace Sound

variable {th : Thread H O}

theorem owed_le (h : Sound th) (o : O) : th.owed o ≤ th.held o := by
  by_cases h₀ : th.owed o = 0
  · omega
  · exact (h.owed_lt o (Nat.pos_of_ne_zero h₀)).le

/-- A thread that owns a reference has something to spare. -/
theorem spare_pos (h : Sound th) {o : O} (ho : 0 < th.held o) : 0 < spare o th := by
  have := h.owed_lt o
  unfold spare
  omega

theorem held_eq_zero (h : Sound th) {o : O} (ho : spare o th = 0) : th.held o = 0 := by
  by_contra hne
  have := h.spare_pos (Nat.pos_of_ne_zero hne)
  omega

/-- A thread between two member functions. -/
theorem of_idle (h : th.todo = []) : Sound th where
  todo := ⟨none, none, h⟩
  owed_lt o ho := by
    rw [Thread.owed, h] at ho
    exact absurd ho (Nat.lt_irrefl 0)

/-- A member function begins. -/
theorem of_starts {th' : Thread H O} {new old : Option O} (hs : Starts th th' new old) : Sound th' where
  todo := ⟨new, old, hs.todo⟩
  owed_lt _ ho := hs.owed_lt ho

/-- The next effect adds a reference. -/
theorem addRef (h : Sound th) {o : O} {es : List (Effect O)} (ht : th.todo = .addRef o :: es) :
    Sound { th with todo := es } ∧ 0 < th.held o ∧
      ∀ q, held q { th with todo := es } = th.held q ∧
        spare q { th with todo := es } = spare q th + if q = o then 1 else 0 := by
  have hheld : ∀ q, held q { th with todo := es } = th.held q := by
    intro q
    simp only [held, ht, List.count_cons, reduceCtorEq, beq_iff_eq, if_false, Nat.add_zero]
  have howed : ∀ q, th.owed q = owed q { th with todo := es } + if q = o then 1 else 0 := by
    intro q
    simp only [owed, ht, List.count_cons, beq_iff_eq, Effect.addRef.injEq, eq_comm (a := o)]
  obtain ⟨new, old, hform⟩ := h.todo
  have hes : es = destroy old := by
    cases new with
    | none =>
      cases old with
      | none => rw [hform] at ht; cases ht
      | some b => rw [hform] at ht; cases ht
    | some b => rw [hform] at ht; cases ht; rfl
  have hes' : ∀ q, owed q { th with todo := es } = 0 := by
    intro q
    rw [Thread.owed, hes, count_addRef_destroy]
  have ho := h.owed_lt o (by rw [howed, if_pos rfl]; omega)
  refine ⟨⟨⟨none, old, hes⟩, fun q hq => ?_⟩, by omega, fun q => ⟨hheld q, ?_⟩⟩
  · rw [hes'] at hq
    exact absurd hq (Nat.lt_irrefl 0)
  · have := howed q
    have := h.owed_le q
    rw [spare, spare, hheld]
    split_ifs at * <;> omega

/-- The next effect releases a reference; nothing is owed any more. -/
theorem release (h : Sound th) {o : O} {es : List (Effect O)} (ht : th.todo = .release o :: es)
    (b : Bool) :
    Sound { th with todo := es, shared := b } ∧ 0 < th.held o ∧
      ∀ q, held q { th with todo := es, shared := b } + (if q = o then 1 else 0) = th.held q ∧
        spare q { th with todo := es, shared := b } + (if q = o then 1 else 0) = spare q th := by
  obtain ⟨new, old, hform⟩ := h.todo
  obtain ⟨hes, hold⟩ : es = [] ∧ th.todo = [.release o] := by
    cases new with
    | none =>
      cases old with
      | none => rw [hform] at ht; cases ht
      | some b => rw [hform] at ht ⊢; cases ht; exact ⟨rfl, rfl⟩
    | some b => rw [hform] at ht; cases ht
  have hheld : ∀ q, held q { th with todo := es, shared := b } + (if q = o then 1 else 0) =
      th.held q := by
    intro q
    simp only [held, ht, List.count_cons, beq_iff_eq, Effect.release.injEq, eq_comm (a := o)]
    omega
  have howed : ∀ q, th.owed q = 0 ∧ owed q { th with todo := es, shared := b } = 0 := by
    intro q
    rw [Thread.owed, Thread.owed, hold, hes]
    exact ⟨by simp, rfl⟩
  refine ⟨.of_idle hes, ?_, fun q => ⟨hheld q, ?_⟩⟩
  · have := hheld o
    rw [if_pos rfl] at this
    omega
  · rw [spare, spare, (howed q).1, (howed q).2]
    exact hheld q

end Sound

/-! ### The invariant -/

variable [Fintype τ]

/-- What holds between any two accesses to the counts. -/
structure Inv (s : State τ H O) : Prop where
  /-- The threads. -/
  sound : ∀ t, Sound (s.thread t)
  /-- The count of an object that lives is what the threads have to spare. -/
  balance : ∀ o, s.Alive o → s.rc o = tally (spare o) s.thread ∧ 0 < s.rc o
  /-- Nobody has a reference to an object that does not live. -/
  dead : ∀ o, ¬ s.Alive o → ∀ t, (s.thread t).held o = 0
  /-- No object is deleted twice. -/
  once : ∀ o, s.deletions o ≤ 1
  /-- No object is deleted before it is created. -/
  fresh : ∀ o, s.created o = false → s.deletions o = 0

namespace Inv

variable {s s' : State τ H O}

/-- An object that a thread owns a reference to lives. -/
theorem alive (h : Inv s) {t : τ} {o : O} (ho : 0 < (s.thread t).held o) : s.Alive o := by
  by_contra hd
  have := h.dead o hd t
  omega

/-- Somebody owns an object that lives. -/
theorem owned_pos (h : Inv s) {o : O} (ho : s.Alive o) : 0 < s.owned o := by
  obtain ⟨hrc, hpos⟩ := h.balance o ho
  have : tally (spare o) s.thread ≤ s.owned o :=
    tally_mono (fun th => (Nat.sub_le _ _ : spare o th ≤ held o th)) s.thread
  omega

theorem owned_eq_zero (h : Inv s) {o : O} (ho : ¬ s.Alive o) : s.owned o = 0 :=
  tally_eq_zero.mpr (h.dead o ho)

/-- **An object is deleted just when nobody owns it any more.** -/
theorem deletions_eq (h : Inv s) (o : O) :
    s.deletions o = if s.created o = true ∧ s.owned o = 0 then 1 else 0 := by
  by_cases ho : s.Alive o
  · have := h.owned_pos ho
    rw [if_neg (by omega), ho.2]
  · by_cases hc : s.created o = true
    · have hd : s.deletions o ≠ 0 := fun hd => ho ⟨hc, hd⟩
      have := h.once o
      rw [if_pos ⟨hc, h.owned_eq_zero ho⟩]
      omega
    · rw [if_neg fun hn => hc hn.1, h.fresh o (Bool.eq_false_iff.mpr hc)]

/-- A thread that is to release a reference, and finds the count at one, owns the last
reference: what the others own they could spare. -/
theorem last (h : Inv s) {t : τ} {o : O} (ht : 0 < (s.thread t).held o) (h₁ : s.rc o = 1) :
    spare o (s.thread t) = 1 ∧ ∀ u, u ≠ t → (s.thread u).held o = 0 := by
  classical
  have hrc := (h.balance o (h.alive ht)).1
  have hle := le_tally (spare o) s.thread t
  have hpos := (h.sound t).spare_pos ht
  refine ⟨by omega, fun u hu => (h.sound u).held_eq_zero ?_⟩
  have := add_le_tally (spare o) s.thread hu
  omega

end Inv

/-- What a step leads to. -/
structure Kept (s s' : State τ H O) : Prop where
  /-- The invariant. -/
  inv : Inv s'
  /-- Only what lives is deleted. -/
  deletions : ∀ o, s'.deletions o = s.deletions o ∨ s.Alive o ∧ s'.deletions o = 1
  /-- What has been created remains so. -/
  created : ∀ o, s.created o = true → s'.created o = true

/-- A step deletes an object just when it makes the number of its owned references zero. -/
theorem Kept.deletions_eq {s s' : State τ H O} (h : Inv s) (k : Kept s s') (o : O) :
    s'.deletions o = s.deletions o + if 0 < s.owned o ∧ s'.owned o = 0 then 1 else 0 := by
  by_cases ho : s.Alive o
  · rw [k.inv.deletions_eq o, ho.2]
    simp only [k.created o ho.1, h.owned_pos ho, true_and, Nat.zero_add]
  · rw [if_neg fun hn => hn.1.ne' (h.owned_eq_zero ho), Nat.add_zero]
    exact (k.deletions o).resolve_right fun hd => ho hd.1

variable [DecidableEq τ]

namespace Inv

variable {s : State τ H O}

/-- A thread changes what it has to spare of an object, and the count changes with it. -/
theorem put (h : Inv s) {t : τ} {th : Thread H O} (rc : O → ℕ) (hth : Sound th)
    (hb : ∀ o, s.Alive o → rc o + spare o (s.thread t) = s.rc o + spare o th ∧ 0 < rc o)
    (hd : ∀ o, ¬ s.Alive o → th.held o = 0) : Kept s { s.put t th with rc := rc } where
  deletions _ := .inl rfl
  created _ := id
  inv := {
    sound := (Function.forall_update_iff s.thread fun _ => Sound).mpr ⟨hth, fun u _ => h.sound u⟩
    balance := fun o ho => by
      obtain ⟨hrc, -⟩ := h.balance o ho
      have hup := tally_update (spare o) s.thread t th
      obtain ⟨hbo, hpos⟩ := hb o ho
      show rc o = tally (spare o) (Function.update s.thread t th) ∧ 0 < rc o
      exact ⟨by omega, hpos⟩
    dead := fun o ho => (Function.forall_update_iff s.thread fun _ th => th.held o = 0).mpr
      ⟨hd o ho, fun u _ => h.dead o ho u⟩
    once := h.once
    fresh := h.fresh }

/-- The count of one object is written. -/
theorem put_count (h : Inv s) {t : τ} {th : Thread H O} {o : O} {n : ℕ} (hth : Sound th) (hn : 0 < n)
    (ho : n + spare o (s.thread t) = s.rc o + spare o th)
    (hq : ∀ q, q ≠ o → spare q th = spare q (s.thread t))
    (hd : ∀ q, ¬ s.Alive q → th.held q = 0) : Kept s ((s.put t th).count o n) := by
  apply h.put (Function.update s.rc o n) hth _ hd
  intro q hl
  by_cases hqo : q = o
  · subst hqo
    rw [Function.update_self]
    exact ⟨ho, hn⟩
  · rw [Function.update_of_ne hqo, hq q hqo]
    exact ⟨rfl, (h.balance q hl).2⟩

/-- The thread that owns the last reference to an object gives it up and deletes the object. -/
theorem delete (h : Inv s) {t : τ} {th : Thread H O} (rc : O → ℕ) {o : O} (hth : Sound th)
    (ho : 0 < (s.thread t).held o) (h₁ : s.rc o = 1) (hz : th.held o = 0)
    (hq : ∀ q, q ≠ o → rc q = s.rc q ∧ th.held q = (s.thread t).held q ∧
      spare q th = spare q (s.thread t)) :
    Kept s (State.delete { s.put t th with rc := rc } o) := by
  have halive := h.alive ho
  obtain ⟨-, hothers⟩ := h.last ho h₁
  have hdel : ∀ q, q ≠ o → Function.update s.deletions o (s.deletions o + 1) q = s.deletions q :=
    fun q hqo => Function.update_of_ne hqo _ _
  have hdelo : Function.update s.deletions o (s.deletions o + 1) o = 1 := by
    rw [Function.update_self, halive.2]
  refine ⟨{ sound := (Function.forall_update_iff s.thread fun _ => Sound).mpr
              ⟨hth, fun u _ => h.sound u⟩,
            balance := fun q hl => ?_, dead := fun q hl => ?_,
            once := fun q => ?_, fresh := fun q hc => ?_ }, fun q => ?_, fun _ => id⟩
  · have hqo : q ≠ o := by
      intro he
      have hl₂ : Function.update s.deletions o (s.deletions o + 1) q = 0 := hl.2
      rw [he, hdelo] at hl₂
      cases hl₂
    obtain ⟨hrc, hpos⟩ := h.balance q ⟨hl.1, (hdel q hqo).symm.trans hl.2⟩
    obtain ⟨hr, -, hs⟩ := hq q hqo
    have hup := tally_update (spare q) s.thread t th
    show rc q = tally (spare q) (Function.update s.thread t th) ∧ 0 < rc q
    omega
  · apply (Function.forall_update_iff s.thread fun _ th => th.held q = 0).mpr
    by_cases hqo : q = o
    · subst hqo
      exact ⟨hz, hothers⟩
    · have hd := h.dead q fun ha => hl ⟨ha.1, (hdel q hqo).trans ha.2⟩
      exact ⟨(hq q hqo).2.1.trans (hd t), fun u _ => hd u⟩
  · show Function.update s.deletions o (s.deletions o + 1) q ≤ 1
    by_cases hqo : q = o
    · rw [hqo, hdelo]
    · rw [hdel q hqo]
      exact h.once q
  · show Function.update s.deletions o (s.deletions o + 1) q = 0
    by_cases hqo : q = o
    · rw [hqo] at hc
      exact absurd (halive.1.symm.trans hc) nofun
    · rw [hdel q hqo]
      exact h.fresh q hc
  · show Function.update s.deletions o (s.deletions o + 1) q = s.deletions q ∨
      s.Alive q ∧ Function.update s.deletions o (s.deletions o + 1) q = 1
    by_cases hqo : q = o
    · subst hqo
      exact .inr ⟨halive, hdelo⟩
    · exact .inl (hdel q hqo)

end Inv

/-! ### One step -/

variable [DecidableEq H] {s s' : State τ H O}

omit [Fintype τ] [DecidableEq τ] [DecidableEq H] [Fintype H] in
theorem owed_of_idle {th : Thread H O} (h : th.todo = []) (o : O) : th.owed o = 0 := by
  rw [Thread.owed, h, List.count_nil]

omit [Fintype τ] [DecidableEq τ] [DecidableEq H] in
/-- A thread receives a raw pointer with its reference. -/
theorem own_spec {th : Thread H O} (h : Sound th) (o : O) :
    Sound (th.own (some o)) ∧ ∀ q, (th.own (some o)).held q = th.held q + (if q = o then 1 else 0) ∧
      spare q (th.own (some o)) = spare q th + (if q = o then 1 else 0) := by
  have hheld : ∀ q, (th.own (some o)).held q = th.held q + if q = o then 1 else 0 := by
    intro q
    have := raw_own th (some o) q
    simp only [points, Option.some.injEq, eq_comm (a := o)] at this
    show tally (points q) th.handle + (th.own (some o)).raw q + th.todo.count _ =
      tally (points q) th.handle + th.raw q + th.todo.count _ + _
    omega
  have howed : ∀ q, (th.own (some o)).owed q = th.owed q := fun q => rfl
  refine ⟨⟨h.todo, fun q hq => ?_⟩, fun q => ⟨hheld q, ?_⟩⟩
  · rw [howed] at hq ⊢
    rw [hheld]
    exact Nat.lt_add_right _ (h.owed_lt q hq)
  · have := h.owed_le q
    rw [spare, spare, hheld, howed]
    omega

omit [Fintype τ] [DecidableEq τ] [DecidableEq H] in
/-- A thread between two member functions hands a raw pointer over. -/
theorem disown_spec {th th' : Thread H O} (h : th.todo = []) {o : O}
    (hd : th.disown (some o) = some th') :
    Sound th' ∧ ∀ q, th'.held q + (if q = o then 1 else 0) = th.held q ∧
      spare q th' + (if q = o then 1 else 0) = spare q th := by
  obtain ⟨hh, ht, -, hr⟩ := raw_disown hd
  have hheld : ∀ q, th'.held q + (if q = o then 1 else 0) = th.held q := by
    intro q
    have := hr q
    simp only [points, Option.some.injEq, eq_comm (a := o)] at this
    rw [held, held, hh, ht]
    omega
  refine ⟨.of_idle (ht.trans h), fun q => ⟨hheld q, ?_⟩⟩
  rw [spare, spare, owed_of_idle h, owed_of_idle (ht.trans h)]
  exact hheld q

namespace Inv

omit [DecidableEq H] in
/-- `new`: the count begins at one, for the thread that has the pointer. -/
theorem create (h : Inv s) {t : τ} {o : O} (hc : s.created o = false) :
    Kept s { s.put t ((s.thread t).own (some o)) with
      rc := Function.update s.rc o 1
      created := Function.update s.created o true } := by
  obtain ⟨hsound, hown⟩ := own_spec (h.sound t) o
  have hnone : ∀ u, (s.thread u).held o = 0 :=
    h.dead o fun ha => absurd (ha.1.symm.trans hc) nofun
  refine ⟨{ sound := (Function.forall_update_iff s.thread fun _ => Sound).mpr
              ⟨hsound, fun u _ => h.sound u⟩,
            balance := fun q hl => ?_, dead := fun q hl => ?_,
            once := h.once, fresh := fun q hq => ?_ }, fun q => .inl rfl, fun q hq => ?_⟩
  · have hup := tally_update (spare q) s.thread t ((s.thread t).own (some o))
    rw [(hown q).2] at hup
    show Function.update s.rc o 1 q =
      tally (spare q) (Function.update s.thread t ((s.thread t).own (some o))) ∧ 0 < Function.update s.rc o 1 q
    by_cases hqo : q = o
    · subst hqo
      have hz : tally (spare q) s.thread = 0 :=
        tally_const_zero fun u => by rw [spare, hnone u, Nat.zero_sub]
      rw [Function.update_self]
      rw [if_pos rfl, hz] at hup
      omega
    · obtain ⟨hrc, hpos⟩ := h.balance q ⟨(Function.update_of_ne hqo _ _).symm.trans hl.1, hl.2⟩
      rw [Function.update_of_ne hqo]
      rw [if_neg hqo] at hup
      omega
  · have hqo : q ≠ o := by
      intro he
      subst he
      exact hl ⟨Function.update_self .., h.fresh q hc⟩
    have hd := h.dead q fun ha => hl ⟨(Function.update_of_ne hqo _ _).trans ha.1, ha.2⟩
    apply (Function.forall_update_iff s.thread fun _ th => th.held q = 0).mpr
    refine ⟨?_, fun u _ => hd u⟩
    rw [(hown q).1, hd, if_neg hqo]
  · have hqo : q ≠ o := by
      intro he
      subst he
      exact absurd ((Function.update_self ..).symm.trans hq) nofun
    exact h.fresh q ((Function.update_of_ne hqo _ _).symm.trans hq)
  · show Function.update s.created o true q = true
    by_cases hqo : q = o
    · rw [hqo, Function.update_self]
    · rw [Function.update_of_ne hqo, hq]

omit [DecidableEq H] in
/-- A reference goes from one thread to another; what both have to spare is the same. -/
theorem give (h : Inv s) {t u : τ} {o : O} {th : Thread H O} (ht : (s.thread t).todo = []) (htu : t ≠ u)
    (hd : (s.thread t).disown (some o) = some th) :
    Kept s ((s.put t th).put u ((s.thread u).own (some o))) := by
  obtain ⟨hst, hdis⟩ := disown_spec ht hd
  obtain ⟨hsu, hown⟩ := own_spec (h.sound u) o
  have hpos : 0 < (s.thread t).held o := by
    have := (hdis o).1
    rw [if_pos rfl] at this
    omega
  refine ⟨{ sound := ?_, balance := fun q hl => ?_, dead := fun q hl => ?_,
            once := h.once, fresh := h.fresh }, fun q => .inl rfl, fun _ => id⟩
  · refine (Function.forall_update_iff _ fun _ => Sound).mpr ⟨hsu, fun v _ => ?_⟩
    exact (Function.forall_update_iff s.thread fun _ => Sound).mpr ⟨hst, fun v _ => h.sound v⟩ v
  · obtain ⟨hrc, hp⟩ := h.balance q hl
    have hup := tally_update (spare q) s.thread t th
    have hup' := tally_update (spare q) (Function.update s.thread t th) u ((s.thread u).own (some o))
    rw [Function.update_of_ne htu.symm, (hown q).2] at hup'
    have := (hdis q).2
    show s.rc q = tally (spare q) (Function.update (Function.update s.thread t th) u _) ∧ 0 < s.rc q
    omega
  · have hqo : q ≠ o := fun he => hl (by rw [he]; exact h.alive hpos)
    have hq := h.dead q hl
    refine (Function.forall_update_iff _ fun _ => (held q · = 0)).mpr ⟨?_, fun v _ => ?_⟩
    · rw [(hown q).1, hq, if_neg hqo]
    · refine (Function.forall_update_iff s.thread fun _ th => th.held q = 0).mpr
        ⟨?_, fun v _ => hq v⟩ v
      have := (hdis q).1
      rw [hq] at this
      omega

/-- The pointers change; the effects are still to come. -/
theorem start (h : Inv s) {t : τ} {c : Call H O} {th : Thread H O} (ht : (s.thread t).todo = [])
    (hc : (s.thread t).start c = some th) : Kept s (s.put t th) := by
  obtain ⟨new, old, hs⟩ := starts_of_start ht hc
  refine h.put s.rc (.of_starts hs) (fun o ho => ⟨?_, (h.balance o ho).2⟩) fun o ho => ?_
  · rw [spare, spare, hs.held, hs.owed, owed_of_idle ht]
    omega
  · have hz := h.dead o ho t
    have hn : new ≠ some o := fun hn => absurd (hs.source o hn) (by omega)
    rw [hs.held, hz, points, if_neg fun he => hn (Option.some.inj he)]

omit [DecidableEq H] in
/-- `ref`. -/
theorem addRef (h : Inv s) {t : τ} {o : O} {es : List (Effect O)}
    (ht : (s.thread t).todo = .addRef o :: es) :
    Kept s ((s.put t { s.thread t with todo := es }).count o (s.rc o + 1)) := by
  obtain ⟨hsound, hpos, hq⟩ := (h.sound t).addRef ht
  refine h.put_count hsound (Nat.succ_pos _) ?_ (fun q hqo => ?_) fun q hl => ?_
  · have := (hq o).2
    rw [if_pos rfl] at this
    dsimp only
    omega
  · rw [(hq q).2, if_neg hqo, Nat.add_zero]
  · rw [(hq q).1]
    exact h.dead q hl t

omit [DecidableEq H] in
/-- `unique()` has found the count above one. -/
theorem shared (h : Inv s) {t : τ} : Kept s (s.put t { s.thread t with shared := true }) :=
  h.put s.rc ⟨(h.sound t).todo, (h.sound t).owed_lt⟩
    (fun o ho => ⟨rfl, (h.balance o ho).2⟩) fun o ho => h.dead o ho t

omit [DecidableEq H] in
/-- The thread that finds the count at one deletes the object, whatever it leaves the count at. -/
theorem release_last (h : Inv s) {t : τ} {o : O} {es : List (Effect O)} (rc : O → ℕ) (b : Bool)
    (ht : (s.thread t).todo = .release o :: es) (h₁ : s.rc o = 1) (hrc : ∀ q, q ≠ o → rc q = s.rc q) :
    Kept s (State.delete { s.put t { s.thread t with todo := es, shared := b } with rc := rc } o) := by
  obtain ⟨hsound, hpos, hq⟩ := (h.sound t).release ht b
  obtain ⟨hspare, -⟩ := h.last hpos h₁
  refine h.delete rc hsound hpos h₁ (hsound.held_eq_zero ?_) fun q hqo => ?_
  · have := (hq o).2
    rw [if_pos rfl] at this
    omega
  · have := hq q
    rw [if_neg hqo] at this
    exact ⟨hrc q hqo, this.1, this.2⟩

omit [DecidableEq H] in
/-- `fetch_sub` left the count above zero. -/
theorem release_shared (h : Inv s) {t : τ} {o : O} {es : List (Effect O)}
    (ht : (s.thread t).todo = .release o :: es) (h₁ : s.rc o ≠ 1) :
    Kept s ((s.put t { s.thread t with todo := es, shared := false }).count o (s.rc o - 1)) := by
  obtain ⟨hsound, hpos, hq⟩ := (h.sound t).release ht false
  have hrc := (h.balance o (h.alive hpos)).2
  refine h.put_count hsound (by omega) ?_ (fun q hqo => ?_) fun q hl => ?_
  · have := (hq o).2
    rw [if_pos rfl] at this
    dsimp only
    omega
  · rw [← (hq q).2, if_neg hqo, Nat.add_zero]
  · have := (hq q).1
    rw [h.dead q hl t] at this
    dsimp only
    omega

/-- **One step**, whichever it is, keeps the invariant, and deletes only what lives. -/
theorem step (h : Inv s) {a : Action τ H O} (hs : s.step a = some s') : Kept s s' := by
  cases a with
  | create t o =>
    simp only [State.step] at hs
    split_ifs at hs with hc
    cases hs
    exact h.create hc.1
  | start t c =>
    simp only [State.step] at hs
    split_ifs at hs with ht
    obtain ⟨th, hth, rfl⟩ := Option.map_eq_some_iff.mp hs
    exact h.start ht hth
  | access t =>
    simp only [State.step] at hs
    split at hs
    next => cases hs
    next o es ht =>
      cases hs
      exact h.addRef ht
    next o es ht =>
      split at hs
      next hsh =>
        split_ifs at hs with h₁ <;> cases hs
        · exact h.release_last s.rc _ ht h₁ fun _ _ => rfl
        · exact h.shared
      next hsh =>
        split_ifs at hs with h₁ <;> cases hs
        · exact h.release_last _ _ ht h₁ fun q hqo => Function.update_of_ne hqo _ _
        · exact h.release_shared ht h₁
  | getReferenceCount t g =>
    simp only [State.step] at hs
    split at hs <;> cases hs
    exact ⟨h, fun _ => .inl rfl, fun _ => id⟩
  | give t u o =>
    simp only [State.step] at hs
    split_ifs at hs with hc
    obtain ⟨th, hth, rfl⟩ := Option.map_eq_some_iff.mp hs
    exact h.give hc.1 hc.2 hth

omit [DecidableEq τ] [DecidableEq H] in
/-- An action that accesses the count of an object finds it alive. -/
theorem touches (h : Inv s) {a : Action τ H O} {o : O} (ha : s.touches a = some o) : s.Alive o := by
  cases a with
  | access t =>
    cases ht : (s.thread t).todo with
    | nil =>
      simp only [State.touches, ht] at ha
      cases ha
    | cons e es =>
      simp only [State.touches, ht, List.head?_cons, Option.map_some, Option.some.injEq] at ha
      cases e with
      | addRef q =>
        cases ha
        exact h.alive ((h.sound t).addRef ht).2.1
      | release q =>
        cases ha
        exact h.alive ((h.sound t).release ht false).2.1
  | getReferenceCount t g =>
    exact h.alive (held_pos_of_handle (Option.join_eq_some_iff.mp ha))
  | create t q => cases ha
  | start t c => cases ha
  | give t u q => cases ha

end Inv

/-! ### Every run -/

/-- **The invariant holds of every run.** -/
theorem inv_of_reachable {s : State τ H O} (hs : (refCounting τ H O).Reachable s) : Inv s := by
  refine System.Reachable.invariant (I := Inv) ?_ (fun s a s' h hs => (h.step hs).inv) hs
  rintro s rfl
  have hheld : ∀ o, held o ({} : Thread H O) = 0 := fun o =>
    (Nat.add_zero _).trans ((Nat.add_zero _).trans (tally_const_zero fun h => points_none o))
  exact { sound := fun t => .of_idle rfl
          balance := fun o ho => absurd ho.1 nofun
          dead := fun o _ t => hheld o
          once := fun o => Nat.zero_le 1
          fresh := fun o _ => rfl }

/-- **Every object is deleted exactly once, when nobody owns it any more**, whatever the
threads call and however their accesses to the counts interleave. In each state reached an
object has been deleted once if it was created and has no owned reference, and else not at
all; each step deletes just what it leaves without an owned reference; and no step accesses
the count of an object that has been deleted. -/
theorem deleted_once {s : State τ H O} (hs : (refCounting τ H O).Reachable s) (o : O) :
    (s.deletions o = if s.created o = true ∧ s.owned o = 0 then 1 else 0) ∧
      ∀ a s', s.step a = some s' →
        s'.deletions o = s.deletions o + (if 0 < s.owned o ∧ s'.owned o = 0 then 1 else 0) ∧
          (s.touches a = some o → s.Alive o) := by
  have h := inv_of_reachable hs
  refine ⟨h.deletions_eq o, fun a s' hstep => ⟨?_, fun ha => h.touches ha⟩⟩
  exact (h.step hstep).deletions_eq h o

/-- Two threads share an object and both find that they are not alone; the one whose
`fetch_sub` comes second deletes it. -/
theorem deleted_once_two : ∃ s s' : State (Fin 2) (Fin 2) (Fin 1),
    s'.deletions 0 = s.deletions 0 + (if 0 < s.owned 0 ∧ s'.owned 0 = 0 then 1 else 0) ∧
      s.deletions 0 = 0 ∧ s'.deletions 0 = 1 ∧ s.Alive 0 := by
  obtain ⟨s, s', hs, hstep, h₀, h₁, ht⟩ :
      ∃ s s', (refCounting (Fin 2) (Fin 2) (Fin 1)).replay (fun _ _ => true) {}
        [.create 0 0, .start 0 (.fromRaw 0 (some 0) false), .start 0 (.copy 1 0), .access 0,
          .start 0 (.detach 1), .give 0 1 0, .start 1 (.fromRaw 0 (some 0) false),
          .start 0 (.destroy 0), .access 0, .start 1 (.destroy 0), .access 1, .access 0] = some s ∧
        s.step (.access 1) = some s' ∧ s.deletions 0 = 0 ∧ s'.deletions 0 = 1 ∧
        s.touches (.access 1) = some 0 :=
    ⟨_, _, rfl, rfl, rfl, rfl, rfl⟩
  obtain ⟨hdel, htouch⟩ := (deleted_once (.of_replay rfl hs) 0).2 _ _ hstep
  exact ⟨s, s', hdel, h₀, h₁, htouch ht⟩

end ActorsFramework.Detail.RefCounted
