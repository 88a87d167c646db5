import Mathlib.Data.List.Basic
import Mathlib.Order.Basic

/-!
# Partition points

`std::partition_point` on a list: a binary search for the end of the elements that
pass a test, in a list in which they come before all others. The loop reads
an element and halves what is left; `partitionPoint_append` says what it finds.
-/

namespace ActorsFramework.Lib

variable {α : Type*}

/-- The loop: the end is sought among `len` elements from `first` on. There are no more rounds
than elements. -/
def partitionLoop (p : α → Bool) (l : List α) : ℕ → ℕ → ℕ → ℕ
  | 0, first, _ => first
  | n + 1, first, len =>
    match l[first + len / 2]? with
    | none => first
    | some x =>
      if len = 0 then first
      else if p x then partitionLoop p l n (first + len / 2 + 1) (len - len / 2 - 1)
      else partitionLoop p l n first (len / 2)

/-- `std::partition_point`, as an index. -/
def partitionPoint (p : α → Bool) (l : List α) : ℕ := partitionLoop p l l.length 0 l.length

variable {p : α → Bool} {front back : List α}

/-- **A round** keeps the end of the front between `first` and `first + len`. -/
theorem partitionLoop_eq (hf : ∀ x ∈ front, p x = true) (hb : ∀ x ∈ back, p x = false) {n first len : ℕ}
    (hn : len ≤ n) (hlo : first ≤ front.length) (hhi : front.length ≤ first + len)
    (hlen : first + len ≤ (front ++ back).length) :
    partitionLoop p (front ++ back) n first len = front.length := by
  induction n generalizing first len with
  | zero =>
    rw [partitionLoop]
    omega
  | succ n ih =>
    rw [partitionLoop]
    cases hx : (front ++ back)[first + len / 2]? with
    | none =>
      have hle := List.getElem?_eq_none_iff.mp hx
      dsimp only
      omega
    | some x =>
      dsimp only
      split_ifs with hz hp
      · omega
      · -- the element in the middle passes: it is in the front
        have hlt : first + len / 2 < front.length := by
          by_contra hge
          rw [List.getElem?_append_right (Nat.le_of_not_lt hge)] at hx
          rw [hb x (List.mem_of_getElem? hx)] at hp
          cases hp
        apply ih <;> omega
      · have hge : front.length ≤ first + len / 2 := by
          by_contra hlt
          rw [List.getElem?_append_left (Nat.lt_of_not_le hlt)] at hx
          exact hp (hf x (List.mem_of_getElem? hx))
        apply ih <;> omega

/-- **The search finds the end of the front.** -/
theorem partitionPoint_append (hf : ∀ x ∈ front, p x = true) (hb : ∀ x ∈ back, p x = false) :
    partitionPoint p (front ++ back) = front.length := by
  apply partitionLoop_eq hf hb
  · exact Nat.le_refl _
  · exact Nat.zero_le _
  · rw [Nat.zero_add, List.length_append]
    exact Nat.le_add_right _ _
  · exact Nat.le_of_eq (Nat.zero_add _)

end ActorsFramework.Lib
