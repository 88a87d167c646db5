import ActorsFramework.Lib.Transition

/-!
# Progress and termination

What a measure says about a transition system. `Progress T c I μ G` states of the
steps that pass the test `c`, in states that have the invariant `I`: each lowers
the measure `μ`, and every state that is not yet a goal `G` admits one.

* `Progress.length_le` — a run of such steps is no longer than the measure.
* `Progress.reaches` — a goal can be reached by them.
* `Progress.goal_of_stuck` — a run of them that cannot be prolonged has reached one.
-/

namespace ActorsFramework.Lib

universe u v

variable {σ : Type u} {α : Type v} {T : System σ α} {c : σ → α → Bool} {I : σ → Prop} {μ : σ → ℕ}
  {G : σ → Prop}

namespace System

/-- A replay of actions, and of further ones from where it ended. -/
theorem replay_append {as bs : List α} {s s' : σ} (h : T.replay c s as = some s') :
    T.replay c s (as ++ bs) = T.replay c s' bs := by
  induction as generalizing s with
  | nil => cases h; rfl
  | cons a as ih =>
    unfold replay at h
    split_ifs at h with hc
    obtain ⟨s₁, h₁, h⟩ := Option.bind_eq_some_iff.mp h
    rw [List.cons_append, replay, if_pos hc, h₁, Option.bind_some, ih h]

/-- The first step of a replay. -/
theorem of_replay_cons {a : α} {as : List α} {s s' : σ} (h : T.replay c s (a :: as) = some s') :
    ∃ s₁, c s a = true ∧ T.step s a = some s₁ ∧ T.replay c s₁ as = some s' := by
  unfold replay at h
  split_ifs at h with hc
  obtain ⟨s₁, h₁, h⟩ := Option.bind_eq_some_iff.mp h
  exact ⟨s₁, hc, h₁, h⟩

end System

variable (T c I μ G) in
/-- The steps that pass `c` lead to `G`, and `μ` counts how many are left. -/
structure Progress : Prop where
  /-- They keep the invariant. -/
  keep : ∀ {s a s'}, I s → c s a = true → T.step s a = some s' → I s'
  /-- They lower the measure. -/
  lower : ∀ {s a s'}, I s → c s a = true → T.step s a = some s' → μ s' < μ s
  /-- Where the goal is not reached there is one. -/
  enabled : ∀ {s}, I s → ¬ G s → ∃ a s', c s a = true ∧ T.step s a = some s'

namespace Progress

/-- **Termination**: a run of such steps is no longer than the measure where it began. -/
theorem length_le (p : Progress T c I μ G) {as : List α} {s s' : σ} (hs : I s)
    (h : T.replay c s as = some s') : I s' ∧ as.length + μ s' ≤ μ s := by
  induction as generalizing s with
  | nil => cases h; exact ⟨hs, by simp⟩
  | cons a as ih =>
    obtain ⟨s₁, hc, h₁, h⟩ := System.of_replay_cons h
    obtain ⟨hI, hle⟩ := ih (p.keep hs hc h₁) h
    have hlt := p.lower hs hc h₁
    refine ⟨hI, ?_⟩
    rw [List.length_cons]
    omega

/-- **Progress**: a goal can be reached by such steps. -/
theorem reaches (p : Progress T c I μ G) {s : σ} (hs : I s) :
    ∃ as s', T.replay c s as = some s' ∧ G s' := by
  induction hn : μ s using Nat.strongRecOn generalizing s with
  | ind n ih =>
    by_cases hG : G s
    · exact ⟨[], s, rfl, hG⟩
    · obtain ⟨a, s₁, hc, h₁⟩ := p.enabled hs hG
      obtain ⟨as, s', h, hG'⟩ := ih (μ s₁) (hn ▸ p.lower hs hc h₁) (p.keep hs hc h₁) rfl
      refine ⟨a :: as, s', ?_, hG'⟩
      rw [System.replay, if_pos hc, h₁, Option.bind_some, h]

/-- A run of such steps that cannot be prolonged has reached a goal. -/
theorem goal_of_stuck (p : Progress T c I μ G) {as : List α} {s s' : σ} (hs : I s)
    (h : T.replay c s as = some s') (hst : ∀ a, T.replay c s (as ++ [a]) = none) : G s' := by
  by_contra hG
  obtain ⟨a, s₁, hc, h₁⟩ := p.enabled (p.length_le hs h).1 hG
  have hn := hst a
  rw [System.replay_append h, System.replay, if_pos hc, h₁] at hn
  cases hn

end Progress

end ActorsFramework.Lib
