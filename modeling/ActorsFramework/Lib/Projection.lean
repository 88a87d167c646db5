import ActorsFramework.Lib.Transition

/-!
# One part of a system

Many components in one system, and what a run of it looks like to one of them. An
action is about the component or not (`part`), and what is seen of a state is a
state of a system for the component alone (`view`). Where an action about it is a
step there, and any other changes nothing that is seen, every run of the whole is
seen as a run of the component's own system (`Projection.run`), and the states of
the whole may be judged by the component's invariants.

`System.within` keeps the steps into states that pass a test; where the test is passed
only after it was passed before, nothing else happens up to such a state.
-/

namespace ActorsFramework.Lib

variable {σ τ α β γ : Type*}

/-- The system without the steps to states that fail the test. -/
def System.within (T : System σ α) (P : σ → Bool) : System σ α where
  Init := T.Init
  step s a := (T.step s a).filter P

theorem System.within_step {T : System σ α} {P : σ → Bool} {s s' : σ} {a : α} :
    (T.within P).step s a = some s' ↔ T.step s a = some s' ∧ P s' = true :=
  Option.filter_eq_some_iff

/-- Up to a state that passes the test there have been no other steps. -/
theorem System.Run.within {T : System σ α} {P : σ → Bool}
    (hP : ∀ s a s', T.step s a = some s' → P s' = true → P s = true) {tr : List (σ × α)} {s : σ}
    (h : T.Run tr s) (hs : P s = true) : (T.within P).Run tr s := by
  induction h with
  | init h₀ => exact .init h₀
  | step _ hstep ih => exact (ih (hP _ _ _ hstep hs)).step (System.within_step.mpr ⟨hstep, hs⟩)

/-- A run as it is seen: the steps that are about the component. -/
def project (view : σ → τ) (part : σ → α → Option β) (tr : List (σ × α)) : List (τ × β) :=
  tr.filterMap fun p => (part p.1 p.2).map fun b => (view p.1, b)

/-- Every step of `T` is seen as a step of `U` or not at all. -/
structure Projection (T : System σ α) (U : System τ β) (view : σ → τ) (part : σ → α → Option β) :
    Prop where
  /-- Runs begin where those of `U` do. -/
  init : ∀ {s}, T.Init s → U.Init (view s)
  /-- An action about the component is a step of it. -/
  step : ∀ {s a s' b}, T.step s a = some s' → part s a = some b →
    U.step (view s) b = some (view s')
  /-- Any other is not seen. -/
  frame : ∀ {s a s'}, T.step s a = some s' → part s a = none → view s' = view s

section Project

variable {view : σ → τ} {part : σ → α → Option β} {tr : List (σ × α)} {s : σ} {a : α}

theorem project_concat : project view part (tr ++ [(s, a)]) =
    project view part tr ++ ((part s a).map fun b => (view s, b)).toList := by
  rw [project, List.filterMap_append]
  cases h : part s a <;> simp [project, h]

/-- What is read off the steps that are seen. -/
theorem filterMap_project (f : τ × β → Option γ) : (project view part tr).filterMap f =
    tr.filterMap fun p => (part p.1 p.2).bind fun b => f (view p.1, b) := by
  rw [project, List.filterMap_filterMap]
  congr 1
  funext p
  cases part p.1 p.2 <;> rfl

/-- A condition on the steps that are seen. -/
theorem meets_project {C : τ → β → Prop} (h : System.Meets (fun s a => ∀ b ∈ part s a, C (view s) b) tr) :
    System.Meets C (project view part tr) := by
  rintro q hq
  obtain ⟨p, hp, hpq⟩ := List.mem_filterMap.mp hq
  obtain ⟨b, hb, rfl⟩ := Option.map_eq_some_iff.mp hpq
  exact h p hp b hb

end Project

/-- **A run of the whole is seen as a run of the part**. -/
theorem Projection.run {T : System σ α} {U : System τ β} {view : σ → τ} {part : σ → α → Option β}
    (h : Projection T U view part) {tr : List (σ × α)} {s : σ} (hr : T.Run tr s) :
    U.Run (project view part tr) (view s) := by
  induction hr with
  | init h₀ => exact .init (h.init h₀)
  | @step tr s s' a _ hs ih =>
    rw [project_concat]
    cases hp : part s a with
    | none =>
      rw [h.frame hs hp]
      simpa using ih
    | some b => exact ih.step (h.step hs hp)

end ActorsFramework.Lib
