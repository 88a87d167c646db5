import Mathlib.Data.List.Basic
import Mathlib.Logic.Relation

/-!
# Transition systems

A system is a set of states where its runs begin and a guarded step function:
`T.step s a` is the state after the action `a`, or `none` where `a` is not
possible in `s`. One function is then both the relation the proofs speak of and
the machine that replays a run.

* `Run T tr s` — a run that took the steps `tr`, each kept with the state it was
  taken in, and is now in `s`.
* `ReachableBy T C s` — a run whose steps all meet `C` reaches `s`. A condition
  on the steps is how a guarantee that holds only on some runs is stated.
* `Run.invariant` — what begins true and is kept by every step is true of every
  state reached.
* `Simulation` — every step of one system is answered by a step of another, or
  by none; `Simulation.reachable` carries reachability along.
* `Tracks` — a run beside the run of the other system that answers it, step by step.
-/

namespace ActorsFramework.Lib

universe u v w

variable {σ : Type u} {α : Type v} {τ : Type w} {β : Type*}

/-- A transition system: where its runs begin, and what each action does. -/
structure System (σ : Type u) (α : Type v) where
  /-- Where a run begins. -/
  Init : σ → Prop
  /-- The state after an action, if the action is possible. -/
  step : σ → α → Option σ

namespace System

variable (T : System σ α)

/-- A run of `T` that took the steps `tr` and is now in the given state. -/
inductive Run : List (σ × α) → σ → Prop where
  /-- Nothing done yet. -/
  | init {s : σ} : T.Init s → Run [] s
  /-- One more step. -/
  | step {tr : List (σ × α)} {s s' : σ} {a : α} :
      Run tr s → T.step s a = some s' → Run (tr ++ [(s, a)]) s'

/-- Every step meets `C`, a condition on the state before it and on the action. -/
def Meets (C : σ → α → Prop) (tr : List (σ × α)) : Prop := ∀ p ∈ tr, C p.1 p.2

/-- Some run whose steps all meet `C` reaches `s`. -/
def ReachableBy (C : σ → α → Prop) (s : σ) : Prop := ∃ tr, T.Run tr s ∧ Meets C tr

/-- Some run reaches `s`. -/
def Reachable (s : σ) : Prop := ∃ tr, T.Run tr s

variable {T}

theorem meets_nil (C : σ → α → Prop) : Meets C [] := fun _ h => by simp at h

theorem meets_concat {C : σ → α → Prop} {tr : List (σ × α)} {s : σ} {a : α} :
    Meets C (tr ++ [(s, a)]) ↔ Meets C tr ∧ C s a := by
  constructor
  · intro h
    exact ⟨fun p hp => h p (by simp [hp]), h (s, a) (by simp)⟩
  · rintro ⟨h, ha⟩ p hp
    rcases List.mem_append.mp hp with hp | hp
    · exact h p hp
    · rw [List.mem_singleton.mp hp]; exact ha

/-- **The rule of invariants**: what holds where runs begin, and is kept by every step
that meets `C`, holds of every state a run of such steps reaches. -/
theorem Run.invariant {C : σ → α → Prop} {I : σ → Prop} (init : ∀ s, T.Init s → I s)
    (step : ∀ s a s', I s → C s a → T.step s a = some s' → I s') {tr : List (σ × α)} {s : σ}
    (h : T.Run tr s) (hC : Meets C tr) : I s := by
  induction h with
  | init h₀ => exact init _ h₀
  | step _ hs ih =>
    obtain ⟨hm, ha⟩ := meets_concat.mp hC
    exact step _ _ _ (ih hm) ha hs

theorem ReachableBy.invariant {C : σ → α → Prop} {I : σ → Prop} (init : ∀ s, T.Init s → I s)
    (step : ∀ s a s', I s → C s a → T.step s a = some s' → I s') {s : σ}
    (h : T.ReachableBy C s) : I s := by
  obtain ⟨tr, hr, hC⟩ := h
  exact hr.invariant init step hC

theorem Reachable.invariant {I : σ → Prop} (init : ∀ s, T.Init s → I s)
    (step : ∀ s a s', I s → T.step s a = some s' → I s') {s : σ} (h : T.Reachable s) : I s := by
  obtain ⟨tr, hr⟩ := h
  exact hr.invariant (C := fun _ _ => True) init (fun s a s' hI _ => step s a s' hI)
    fun _ _ => trivial

/-- The states in which the steps of a run were taken have been reached. -/
theorem Run.reachable_of_mem {tr : List (σ × α)} {s : σ} (h : T.Run tr s) {p : σ × α}
    (hp : p ∈ tr) : T.Reachable p.1 := by
  induction h with
  | init => cases hp
  | @step tr s _ a hr _ ih =>
    rcases List.mem_append.mp hp with hp | hp
    · exact ih hp
    · rw [List.mem_singleton.mp hp]
      exact ⟨tr, hr⟩

theorem ReachableBy.reachable {C : σ → α → Prop} {s : σ} (h : T.ReachableBy C s) :
    T.Reachable s := by
  obtain ⟨tr, hr, _⟩ := h
  exact ⟨tr, hr⟩

/-- A weaker condition admits more runs. -/
theorem ReachableBy.mono {C D : σ → α → Prop} (hCD : ∀ s a, C s a → D s a) {s : σ}
    (h : T.ReachableBy C s) : T.ReachableBy D s := by
  obtain ⟨tr, hr, hC⟩ := h
  exact ⟨tr, hr, fun p hp => hCD _ _ (hC p hp)⟩

/-! ### Replaying a run -/

variable (T) in
/-- Take the actions in turn, each only if it is possible and passes the test `c`. -/
def replay (c : σ → α → Bool) (s : σ) : List α → Option σ
  | [] => some s
  | a :: as => if c s a then (T.step s a).bind fun s' => replay c s' as else none

/-- A replay is a run whose steps meet what the test decides. -/
theorem ReachableBy.of_replay {C : σ → α → Prop} {c : σ → α → Bool}
    (hc : ∀ s a, c s a = true → C s a) :
    ∀ {as : List α} {s s' : σ}, T.ReachableBy C s → T.replay c s as = some s' →
      T.ReachableBy C s'
  | [], _, _, hs, h => by cases h; exact hs
  | a :: as, s, s', hs, h => by
    unfold replay at h
    split_ifs at h with hca
    obtain ⟨s₁, h₁, h⟩ := Option.bind_eq_some_iff.mp h
    obtain ⟨tr, hr, hC⟩ := hs
    exact of_replay hc ⟨tr ++ [(s, a)], hr.step h₁, meets_concat.mpr ⟨hC, hc _ _ hca⟩⟩ h

/-- A replay without a test is a run. -/
theorem Reachable.of_replay {as : List α} {s s' : σ} (hs : T.Init s)
    (h : T.replay (fun _ _ => true) s as = some s') : T.Reachable s' :=
  (ReachableBy.of_replay (C := fun _ _ => True) (fun _ _ _ => trivial)
    ⟨[], .init hs, meets_nil _⟩ h).reachable

/-- These actions, taken one after another from the state `s`, are a run. -/
theorem Reachable.of_actions {s : σ} (hs : T.Init s) (as : List α) {s' : σ}
    (h : T.replay (fun _ _ => true) s as = some s') : T.Reachable s' :=
  .of_replay hs h

end System

/-! ### Simulation -/

/-- `R` relates every run of `T` to one of `U`: it holds where runs begin, and a step
of `T` is answered by at most one step of `U`. -/
structure Simulation (T : System σ α) (U : System τ β) (R : σ → τ → Prop) : Prop where
  /-- Runs begin related. -/
  init : ∀ {s}, T.Init s → ∃ t, U.Init t ∧ R s t
  /-- A step is answered by a step, or by standing still. -/
  step : ∀ {s s' a t}, R s t → T.step s a = some s' →
    R s' t ∨ ∃ b t', U.step t b = some t' ∧ R s' t'

/-- A run of `T` and one of `U` beside it: for each step of `T`, `U` takes one step or none, and
the states they are in are related all along. -/
inductive Tracks (T : System σ α) (U : System τ β) (R : σ → τ → Prop) :
    List (σ × α) → σ → List (τ × β) → τ → Prop where
  /-- Both begin. -/
  | init {s : σ} {t : τ} : T.Init s → U.Init t → R s t → Tracks T U R [] s [] t
  /-- A step of `T` alone. -/
  | stay {tr : List (σ × α)} {utr : List (τ × β)} {s s' : σ} {a : α} {t : τ} :
      Tracks T U R tr s utr t → T.step s a = some s' → R s' t →
      Tracks T U R (tr ++ [(s, a)]) s' utr t
  /-- A step of both. -/
  | move {tr : List (σ × α)} {utr : List (τ × β)} {s s' : σ} {a : α} {t t' : τ} {b : β} :
      Tracks T U R tr s utr t → T.step s a = some s' → U.step t b = some t' → R s' t' →
      Tracks T U R (tr ++ [(s, a)]) s' (utr ++ [(t, b)]) t'

section Tracks

variable {T : System σ α} {U : System τ β} {R : σ → τ → Prop} {tr : List (σ × α)}
  {utr : List (τ × β)} {s : σ} {t : τ}

theorem Tracks.run (h : Tracks T U R tr s utr t) : U.Run utr t := by
  induction h with
  | init _ ht _ => exact .init ht
  | stay _ _ _ ih => exact ih
  | move _ _ hb _ ih => exact ih.step hb

theorem Tracks.related (h : Tracks T U R tr s utr t) : R s t := by
  cases h with
  | init _ _ hR => exact hR
  | stay _ _ hR => exact hR
  | move _ _ _ hR => exact hR

/-- A simulation goes along with every run. -/
theorem Simulation.tracks (h : Simulation T U R) (hr : T.Run tr s) :
    ∃ utr t, Tracks T U R tr s utr t := by
  induction hr with
  | init h₀ =>
    obtain ⟨t, ht, hR⟩ := h.init h₀
    exact ⟨[], t, .init h₀ ht hR⟩
  | step _ hs ih =>
    obtain ⟨utr, t, htr⟩ := ih
    rcases h.step htr.related hs with hR | ⟨b, t', hb, hR⟩
    · exact ⟨utr, t, .stay htr hs hR⟩
    · exact ⟨_, t', .move htr hs hb hR⟩

/-- A simulation carries every reachable state to a reachable state. -/
theorem Simulation.reachable (h : Simulation T U R) (hs : T.Reachable s) :
    ∃ t, U.Reachable t ∧ R s t := by
  obtain ⟨tr, hr⟩ := hs
  obtain ⟨utr, t, htr⟩ := h.tracks hr
  exact ⟨t, ⟨utr, htr.run⟩, htr.related⟩

end Tracks

end ActorsFramework.Lib
