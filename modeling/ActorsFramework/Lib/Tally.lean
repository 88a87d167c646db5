import Mathlib.Algebra.BigOperators.Group.Finset.Basic
import Mathlib.Algebra.Group.Action.Defs
import Mathlib.Algebra.Order.BigOperators.Group.Finset
import Mathlib.Data.Fintype.Basic
import Mathlib.Tactic.Abel

/-!
# Counting over a family of threads

The local states of finitely many threads are a function on an index type. A
quantity of the whole family is a sum of a weight of each local state; one
thread's step changes one summand.
-/

namespace ActorsFramework.Lib

variable {τ β : Type*} [Fintype τ]

/-- The sum of the weight `f` over the threads of `g`. -/
def tally (f : β → ℕ) (g : τ → β) : ℕ := ∑ t, f (g t)

theorem tally_eq_zero {f : β → ℕ} {g : τ → β} : tally f g = 0 ↔ ∀ t, f (g t) = 0 := by
  simp [tally]

/-- One thread's weight is part of the tally. -/
theorem le_tally (f : β → ℕ) (g : τ → β) (t : τ) : f (g t) ≤ tally f g :=
  Finset.single_le_sum (f := fun u => f (g u)) (fun _ _ => Nat.zero_le _) (Finset.mem_univ t)

theorem tally_mono {f₁ f₂ : β → ℕ} (h : ∀ b, f₁ b ≤ f₂ b) (g : τ → β) : tally f₁ g ≤ tally f₂ g :=
  Finset.sum_le_sum fun _ _ => h _

/-- A bound on the weight of one thread. -/
theorem tally_le_mul {f : β → ℕ} {k : ℕ} (h : ∀ b, f b ≤ k) (g : τ → β) :
    tally f g ≤ Fintype.card τ * k := by
  have hle := Finset.sum_le_card_nsmul Finset.univ (fun t => f (g t)) k fun t _ => h (g t)
  rwa [Finset.card_univ, smul_eq_mul] at hle

/-- A weight that each thread may exceed by `k`. -/
theorem tally_le_add_mul {f₁ f₂ : β → ℕ} {k : ℕ} (h : ∀ b, f₁ b ≤ f₂ b + k) (g : τ → β) :
    tally f₁ g ≤ tally f₂ g + Fintype.card τ * k := by
  calc tally f₁ g ≤ ∑ t, (f₂ (g t) + k) := Finset.sum_le_sum fun t _ => h (g t)
    _ = tally f₂ g + Fintype.card τ * k := by
        rw [Finset.sum_add_distrib, Finset.sum_const, Finset.card_univ, smul_eq_mul]
        rfl

/-- A weight that each thread may exceed by one. -/
theorem tally_le_add_card {f₁ f₂ : β → ℕ} (h : ∀ b, f₁ b ≤ f₂ b + 1) (g : τ → β) :
    tally f₁ g ≤ tally f₂ g + Fintype.card τ := by
  simpa using tally_le_add_mul h g

theorem tally_const_zero {g : τ → β} {f : β → ℕ} (h : ∀ t, f (g t) = 0) : tally f g = 0 :=
  tally_eq_zero.mpr h

/-- A number of threads is a tally of weights `1` and `0`. -/
theorem card_filter_eq_tally (p : β → Bool) (g : τ → β) :
    (Finset.univ.filter fun t => p (g t) = true).card = tally (fun b => (p b).toNat) g := by
  rw [Finset.card_eq_sum_ones, Finset.sum_filter]
  refine Finset.sum_congr rfl fun t _ => ?_
  change (if p (g t) = true then 1 else 0) = (p (g t)).toNat
  cases p (g t) <;> rfl

variable [DecidableEq τ]

/-- Where two families differ at one index, so do their sums. -/
theorem sum_replace {M : Type*} [AddCommMonoid M] {f g : τ → M} (t : τ) (h : ∀ u, u ≠ t → f u = g u) :
    ∑ u, f u + g t = ∑ u, g u + f t := by
  rw [← Finset.add_sum_erase _ f (Finset.mem_univ t), ← Finset.add_sum_erase _ g (Finset.mem_univ t),
    Finset.sum_congr rfl fun u hu => h u (Finset.ne_of_mem_erase hu)]
  abel

/-- One thread's step replaces its weight. -/
theorem tally_update (f : β → ℕ) (g : τ → β) (t : τ) (b : β) :
    tally f (Function.update g t b) + f (g t) = tally f g + f b := by
  have h := sum_replace (f := fun u => f (Function.update g t b u)) (g := fun u => f (g u)) t
    fun u hu => by rw [Function.update_of_ne hu]
  rwa [Function.update_self] at h

/-- One thread's step replaces its weight, where every other thread may come to weigh `k` more. -/
theorem tally_replace_le {f f' : β → ℕ} {g : τ → β} {t : τ} {k : ℕ}
    (h : ∀ u, u ≠ t → f' (g u) ≤ f (g u) + k) (b : β) :
    tally f' (Function.update g t b) + f (g t) + k ≤ tally f g + f' b + Fintype.card τ * k := by
  have hothers : tally f' (Function.update g t b) ≤
      ∑ u ∈ Finset.univ.erase t, (f (g u) + k) + f' b := by
    unfold tally
    rw [← Finset.add_sum_erase _ _ (Finset.mem_univ t), Function.update_self, Nat.add_comm]
    refine Nat.add_le_add_right (Finset.sum_le_sum fun u hu => ?_) _
    rw [Function.update_of_ne (Finset.ne_of_mem_erase hu)]
    exact h u (Finset.ne_of_mem_erase hu)
  have hall : tally f g + Fintype.card τ * k = ∑ u, (f (g u) + k) := by
    rw [Finset.sum_add_distrib, Finset.sum_const, Finset.card_univ, smul_eq_mul]
    rfl
  rw [← Finset.add_sum_erase _ _ (Finset.mem_univ t)] at hall
  omega

/-- Two threads that both weigh something weigh at least the sum of both. -/
theorem add_le_tally (f : β → ℕ) (g : τ → β) {t u : τ} (h : t ≠ u) :
    f (g t) + f (g u) ≤ tally f g := by
  unfold tally
  rw [← Finset.add_sum_erase _ _ (Finset.mem_univ t)]
  exact Nat.add_le_add_left (Finset.single_le_sum (f := fun u => f (g u))
    (fun _ _ => Nat.zero_le _) (Finset.mem_erase.mpr ⟨h.symm, Finset.mem_univ u⟩)) _

end ActorsFramework.Lib
