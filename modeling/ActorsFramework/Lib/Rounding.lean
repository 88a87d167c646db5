import Mathlib.Order.Bounds.Basic
import Mathlib.Data.Nat.ModEq

/-!
# Rounding up

The least multiple of a number from some other number on, and how machine words
round up to a power of two by a mask: for a word `a` that is a power of two,
`-a` has all bits set from that of `a` on, so `x &&& -a` is the greatest multiple
of `a` up to `x`. Only where the multiple is out of range does the word differ
from it; it is zero then.
-/

namespace ActorsFramework.Lib

/-- The least multiple of `a` from `x` on. -/
def roundUp (x a : ℕ) : ℕ := (x + a - 1) / a * a

section Nat

variable {x y a : ℕ}

theorem dvd_roundUp (x a : ℕ) : a ∣ roundUp x a := Nat.dvd_mul_left a _

theorem le_roundUp (ha : 0 < a) : x ≤ roundUp x a := by
  have h := Nat.div_add_mod (x + a - 1) a
  have hm := Nat.mod_lt (x + a - 1) ha
  rw [Nat.mul_comm] at h
  unfold roundUp
  omega

theorem roundUp_lt (ha : 0 < a) : roundUp x a < x + a := by
  have h := Nat.div_mul_le_self (x + a - 1) a
  unfold roundUp
  omega

/-- **No multiple from `x` on is less.** -/
theorem isLeast_roundUp (ha : 0 < a) : IsLeast {y | x ≤ y ∧ a ∣ y} (roundUp x a) := by
  refine ⟨⟨le_roundUp ha, dvd_roundUp x a⟩, ?_⟩
  rintro _ ⟨hx, k, rfl⟩
  have hlt : a * ((x + a - 1) / a) < a * (k + 1) := by
    have h := Nat.mul_div_le (x + a - 1) a
    rw [Nat.mul_add, Nat.mul_one]
    omega
  have hk := Nat.le_of_lt_succ (Nat.lt_of_mul_lt_mul_left hlt)
  rw [roundUp, Nat.mul_comm a k]
  exact Nat.mul_le_mul_right a hk

/-- A multiple from `x` on is at least the least. -/
theorem roundUp_le (ha : 0 < a) (hx : x ≤ y) (hy : a ∣ y) : roundUp x a ≤ y :=
  (isLeast_roundUp ha).2 ⟨hx, hy⟩

end Nat

/-! ### On machine words -/

section Word

variable {w : ℕ} {a : BitVec w}

/-- A power of two divides the number of words. -/
theorem dvd_two_pow_of_isPowerOfTwo (ha : a.toNat.isPowerOfTwo) : a.toNat ∣ 2 ^ w := by
  obtain ⟨k, hk⟩ := ha
  have hlt := a.isLt
  rw [hk] at hlt ⊢
  exact Nat.pow_dvd_pow 2 (Nat.le_of_lt ((Nat.pow_lt_pow_iff_right Nat.one_lt_two).mp hlt))

/-- The bits of the negative of a power of two. -/
theorem testBit_two_pow_sub_two_pow {k : ℕ} (hk : k ≤ w) (i : ℕ) :
    (2 ^ w - 2 ^ k).testBit i = (decide (k ≤ i) && decide (i < w)) := by
  have hfac : 2 ^ w - 2 ^ k = 2 ^ k * (2 ^ (w - k) - 1) := by
    rw [Nat.mul_sub, Nat.mul_one, ← Nat.pow_add, Nat.add_sub_cancel' hk]
  rw [hfac, Nat.testBit_two_pow_mul, Nat.testBit_two_pow_sub_one]
  by_cases hki : k ≤ i
  · have : (i - k < w - k) ↔ i < w := by omega
    simp only [hki, decide_true, Bool.true_and, this]
  · simp only [hki, decide_false, Bool.false_and]

/-- **The mask cuts off the rest**: a word is rounded down to a multiple of a power of two. -/
theorem toNat_and_neg (ha : a.toNat.isPowerOfTwo) (x : BitVec w) :
    (x &&& -a).toNat = x.toNat / a.toNat * a.toNat := by
  obtain ⟨k, hk⟩ := ha
  have hlt := a.isLt
  have hkw : k < w := by
    rw [hk] at hlt
    exact (Nat.pow_lt_pow_iff_right Nat.one_lt_two).mp hlt
  have hpos : 0 < 2 ^ k := Nat.two_pow_pos k
  have hneg : (-a).toNat = 2 ^ w - 2 ^ k := by
    rw [BitVec.toNat_neg, hk, Nat.mod_eq_of_lt (by omega)]
  rw [BitVec.toNat_and, hneg, hk]
  apply Nat.eq_of_testBit_eq
  intro i
  rw [Nat.testBit_and, testBit_two_pow_sub_two_pow hkw.le, Nat.testBit_mul_two_pow,
    Nat.testBit_div_two_pow]
  by_cases hki : k ≤ i
  · by_cases hiw : i < w
    · simp [hki, hiw, Nat.sub_add_cancel hki]
    · have hx : x.toNat.testBit i = false :=
        Nat.testBit_lt_two_pow (lt_of_lt_of_le x.isLt (Nat.pow_le_pow_right Nat.two_pos (by omega)))
      simp [hki, hx, Nat.sub_add_cancel hki]
  · simp [hki]

/-- The word before that of a positive number. -/
theorem ofNat_sub_one {n : ℕ} (hn : 0 < n) : BitVec.ofNat w n - 1#w = BitVec.ofNat w (n - 1) := by
  have h : BitVec.ofNat w n = BitVec.ofNat w (n - 1) + 1#w := by
    rw [← BitVec.ofNat_add, Nat.sub_add_cancel hn]
  rw [h, BitVec.add_sub_cancel]

/-- **Words round up to a power of two by a mask**, but for a multiple that is out of range. -/
theorem toNat_roundUp (ha : a.toNat.isPowerOfTwo) (x : BitVec w) :
    ((x + a - 1#w) &&& -a).toNat = roundUp x.toNat a.toNat % 2 ^ w := by
  have hpos := Nat.pos_of_isPowerOfTwo ha
  obtain ⟨b, hb⟩ := dvd_two_pow_of_isPowerOfTwo ha
  have hsum : x + a - 1#w = BitVec.ofNat w (x.toNat + a.toNat - 1) := by
    rw [← ofNat_sub_one (by omega), BitVec.ofNat_add, BitVec.ofNat_toNat, BitVec.ofNat_toNat,
      BitVec.setWidth_eq, BitVec.setWidth_eq]
  rw [toNat_and_neg ha, hsum, BitVec.toNat_ofNat, roundUp, hb, Nat.mod_mul_right_div_self,
    Nat.mul_comm a.toNat b, Nat.mul_mod_mul_right]

/-- The test for powers of two is passed by these and by zero. -/
theorem and_sub_one_eq_zero_iff (a : BitVec w) :
    a &&& (a - 1#w) = 0#w ↔ a = 0#w ∨ a.toNat.isPowerOfTwo := by
  by_cases ha : a = 0#w
  · subst ha
    simp
  · have hne : a.toNat ≠ 0 := fun h => ha (BitVec.eq_of_toNat_eq h)
    have hsub : (a - 1#w).toNat = a.toNat - 1 := by
      have hlt := a.isLt
      have h := ofNat_sub_one (w := w) (Nat.pos_of_ne_zero hne)
      rw [BitVec.ofNat_toNat, BitVec.setWidth_eq] at h
      rw [h, BitVec.toNat_ofNat, Nat.mod_eq_of_lt (by omega)]
    rw [← Nat.and_sub_one_eq_zero_iff_isPowerOfTwo hne, or_iff_right ha, ← BitVec.toNat_inj,
      BitVec.toNat_and, hsub]
    rfl

end Word

end ActorsFramework.Lib
