import Mathlib.Algebra.BigOperators.Group.List.Basic
import Mathlib.Tactic.Ring
import ActorsFramework.Lib.Transition

/-!
# Amortised costs

What a stretch of a run costs. `Path s tr s'` is a run that starts anywhere, with its
steps; `total f tr` adds up what each of them contributes. `Path.amortised` is the
potential method: where each step is paid for by what it brings and by the
potential it uses up, so is the whole stretch.

`T.stutter P` is `T` with further steps that change nothing, an exchange that fails for no
reason for example; `Path.of_stutter` leaves them out again.
-/

namespace ActorsFramework.Lib.System

universe u v w

variable {σ : Type u} {α : Type v} {β : Type w} {T : System σ α}

variable (T) in
/-- The steps `tr` lead from one state to another. -/
inductive Path : σ → List (σ × α) → σ → Prop where
  /-- No step. -/
  | nil {s : σ} : Path s [] s
  /-- A step, and the others. -/
  | cons {tr : List (σ × α)} {s s₁ s' : σ} {a : α} :
      T.step s a = some s₁ → Path s₁ tr s' → Path s ((s, a) :: tr) s'

/-- Where a run goes on. -/
theorem Path.reachable {tr : List (σ × α)} {s s' : σ} (h : T.Path s tr s') (hs : T.Reachable s) :
    T.Reachable s' := by
  induction h with
  | nil => exact hs
  | cons hstep _ ih =>
    obtain ⟨tr, hr⟩ := hs
    exact ih ⟨_, hr.step hstep⟩

/-- The sum of the contributions of the steps. -/
def total (f : σ → α → ℕ) (tr : List (σ × α)) : ℕ := (tr.map fun p => f p.1 p.2).sum

@[simp] theorem total_nil (f : σ → α → ℕ) : total f [] = 0 := rfl
@[simp] theorem total_cons (f : σ → α → ℕ) (p : σ × α) (tr : List (σ × α)) :
    total f (p :: tr) = f p.1 p.2 + total f tr := List.sum_cons

theorem total_add (f g : σ → α → ℕ) (tr : List (σ × α)) :
    total (fun s a => f s a + g s a) tr = total f tr + total g tr := by
  induction tr with
  | nil => rfl
  | cons p tr ih =>
    rw [total_cons, total_cons, total_cons, ih]
    ring

theorem total_mul (k : ℕ) (f : σ → α → ℕ) (tr : List (σ × α)) :
    total (fun s a => k * f s a) tr = k * total f tr := by
  induction tr with
  | nil => rfl
  | cons p tr ih =>
    rw [total_cons, total_cons, ih]
    ring

/-- **The potential method**. `P s n` says that the potential of `s` is `n`. Where each step
costs no more than it brings and than the potential falls, a stretch of a run costs no more than
all its steps bring and than the potential falls over it. -/
theorem Path.amortised {P : σ → ℕ → Prop} (cost credit : σ → α → ℕ)
    (step : ∀ s n a s', P s n → T.step s a = some s' →
      ∃ n', P s' n' ∧ n' + cost s a ≤ n + credit s a)
    {tr : List (σ × α)} {s s' : σ} {n : ℕ} (hn : P s n) (h : T.Path s tr s') :
    ∃ n', P s' n' ∧ n' + total cost tr ≤ n + total credit tr := by
  induction h generalizing n with
  | nil => exact ⟨n, hn, le_rfl⟩
  | cons hstep _ ih =>
    obtain ⟨n₁, hn₁, hle₁⟩ := step _ _ _ _ hn hstep
    obtain ⟨n', hn', hle⟩ := ih hn₁
    refine ⟨n', hn', ?_⟩
    rw [total_cons, total_cons]
    dsimp only
    omega

/-- The same for a potential that every reachable state has. -/
theorem Path.amortised_reachable {p : σ → ℕ} (cost credit : σ → α → ℕ)
    (step : ∀ s a s', T.Reachable s → T.step s a = some s' → p s' + cost s a ≤ p s + credit s a)
    {tr : List (σ × α)} {s s' : σ} (hs : T.Reachable s) (h : T.Path s tr s') :
    p s' + total cost tr ≤ p s + total credit tr := by
  have hstep : ∀ s n a s', T.Reachable s ∧ p s = n → T.step s a = some s' →
      ∃ n', (T.Reachable s' ∧ p s' = n') ∧ n' + cost s a ≤ n + credit s a := by
    rintro s n a s' ⟨⟨tr, hr⟩, rfl⟩ hs
    exact ⟨_, ⟨⟨_, hr.step hs⟩, rfl⟩, step s a s' ⟨tr, hr⟩ hs⟩
  obtain ⟨n', ⟨-, rfl⟩, hle⟩ := Path.amortised cost credit hstep ⟨hs, rfl⟩ h
  exact hle

/-! ### Steps that change nothing -/

variable (T) in
/-- The system with further steps that change nothing, each possible where `P` says so. -/
def stutter (P : σ → β → Bool) : System σ (α ⊕ β) where
  Init := T.Init
  step s
    | .inl a => T.step s a
    | .inr b => if P s b then some s else none

/-- What the steps of the system itself contribute. -/
def proper (f : σ → α → ℕ) (s : σ) : α ⊕ β → ℕ
  | .inl a => f s a
  | .inr _ => 0

/-- The steps that change nothing. -/
def stutters (_ : σ) : α ⊕ β → ℕ
  | .inl _ => 0
  | .inr _ => 1

/-- Both: each step that changes nothing counts one. -/
def withStutters (f : σ → α → ℕ) (s : σ) : α ⊕ β → ℕ
  | .inl a => f s a
  | .inr _ => 1

theorem total_withStutters (f : σ → α → ℕ) (tr : List (σ × (α ⊕ β))) :
    total (withStutters f) tr = total (proper f) tr + total stutters tr := by
  rw [← total_add]
  congr 1
  funext s a
  cases a with
  | inl a => rfl
  | inr b => rfl

/-- Without the steps that change nothing the stretch is one of the system itself. -/
theorem Path.of_stutter {P : σ → β → Bool} {tr : List (σ × (α ⊕ β))} {s s' : σ}
    (h : (T.stutter P).Path s tr s') :
    ∃ tr', T.Path s tr' s' ∧ ∀ f, total f tr' = total (proper f) tr := by
  induction h with
  | nil => exact ⟨[], .nil, fun _ => rfl⟩
  | @cons tr s s₁ s' a hstep _ ih =>
    obtain ⟨tr', hp, htotal⟩ := ih
    cases a with
    | inl a =>
      refine ⟨(s, a) :: tr', .cons hstep hp, fun f => ?_⟩
      rw [total_cons, total_cons, htotal]
      rfl
    | inr b =>
      -- the state is the same
      obtain ⟨-, rfl⟩ : P s b = true ∧ s = s₁ := by
        simpa [stutter] using hstep
      refine ⟨tr', hp, fun f => ?_⟩
      rw [htotal, total_cons]
      exact (Nat.zero_add _).symm

/-! ### Replaying a stretch -/

variable (T) in
/-- The steps that these actions are, as long as they are possible. -/
def trace (s : σ) : List α → List (σ × α)
  | [] => []
  | a :: as => (s, a) :: match T.step s a with
    | some s' => trace s' as
    | none => []

theorem path_of_replay {as : List α} {s s' : σ} (h : T.replay (fun _ _ => true) s as = some s') :
    T.Path s (T.trace s as) s' := by
  induction as generalizing s with
  | nil =>
    cases h
    exact .nil
  | cons a as ih =>
    rw [replay, if_pos rfl] at h
    obtain ⟨s₁, h₁, h⟩ := Option.bind_eq_some_iff.mp h
    rw [trace, h₁]
    exact .cons h₁ (ih h)

end ActorsFramework.Lib.System
