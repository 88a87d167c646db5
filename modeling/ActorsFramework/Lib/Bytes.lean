import Mathlib.Data.BitVec

/-!
# Bytes in memory

A memory maps addresses, words of `w` bits, to bytes. A value is kept in `n`
consecutive bytes, in the way its `Representation` says; nothing here depends on the
order of the bytes. What is stored is read back until one of its bytes is written.
-/

namespace ActorsFramework.Lib

/-- A memory. -/
abbrev Memory (w : ℕ) := BitVec w → BitVec 8

/-- How a value is kept in `n` bytes. -/
structure Representation (V : Type*) (n : ℕ) where
  /-- The bytes of a value. -/
  bytes : V → Fin n → BitVec 8
  /-- The value of bytes. -/
  value : (Fin n → BitVec 8) → V
  /-- A value is that of its bytes. -/
  value_bytes : ∀ v, value (bytes v) = v

/-- `n` bytes from `p` on, when they do not reach beyond the last address. -/
def InRange {w : ℕ} (p : BitVec w) (n : ℕ) (a : BitVec w) : Prop :=
  p.toNat ≤ a.toNat ∧ a.toNat < p.toNat + n

instance {w : ℕ} (p : BitVec w) (n : ℕ) (a : BitVec w) : Decidable (InRange p n a) :=
  inferInstanceAs (Decidable (_ ∧ _))

namespace Representation

variable {V : Type*} {w n : ℕ} (R : Representation V n)

/-- The value at an address. -/
def load (m : Memory w) (p : BitVec w) : V := R.value fun i => m (p + BitVec.ofNat w i)

/-- The memory after a value is written to an address. -/
def store (m : Memory w) (p : BitVec w) (v : V) : Memory w := fun a =>
  if h : InRange p n a then R.bytes v ⟨a.toNat - p.toNat, by have := h.1; have := h.2; omega⟩
  else m a

variable {m m' : Memory w} {p : BitVec w}

theorem store_of_not_inRange {v : V} {a : BitVec w} (h : ¬ InRange p n a) : R.store m p v a = m a :=
  dif_neg h

theorem toNat_add_ofNat (hp : p.toNat + n ≤ 2 ^ w) (i : Fin n) :
    (p + BitVec.ofNat w i).toNat = p.toNat + i := by
  rw [BitVec.toNat_add, BitVec.toNat_ofNat, Nat.add_mod_mod, Nat.mod_eq_of_lt (by omega)]

/-- A value is read from its bytes and from no others. -/
theorem load_congr (hp : p.toNat + n ≤ 2 ^ w) (h : ∀ a, InRange p n a → m' a = m a) :
    R.load m' p = R.load m p := by
  unfold load
  congr 1
  funext i
  apply h
  rw [InRange, toNat_add_ofNat hp]
  omega

/-- **What was stored is read back.** -/
theorem load_store (hp : p.toNat + n ≤ 2 ^ w) (v : V) : R.load (R.store m p v) p = v := by
  have hb : (fun i : Fin n => R.store m p v (p + BitVec.ofNat w i)) = R.bytes v := by
    funext i
    have ha := toNat_add_ofNat hp i
    rw [store, dif_pos ⟨by omega, by omega⟩]
    congr 1
    apply Fin.ext
    show _ - _ = (i : ℕ)
    omega
  rw [load, hb, R.value_bytes]

end Representation

/-- The value of bytes, the lowest first. -/
def ofBytes : {n : ℕ} → (Fin n → BitVec 8) → ℕ
  | 0, _ => 0
  | _ + 1, b => (b 0).toNat + 256 * ofBytes fun i => b i.succ

/-- The lowest bytes of a number determine its remainder. -/
theorem ofBytes_div (n v : ℕ) :
    ofBytes (fun i : Fin n => BitVec.ofNat 8 (v / 256 ^ (i : ℕ))) = v % 256 ^ n := by
  induction n generalizing v with
  | zero => exact (Nat.mod_one v).symm
  | succ n ih =>
    have hs : (fun i : Fin n => BitVec.ofNat 8 (v / 256 ^ (i.succ : ℕ))) =
        fun i : Fin n => BitVec.ofNat 8 (v / 256 / 256 ^ (i : ℕ)) := by
      funext i
      rw [Fin.val_succ, Nat.pow_succ', Nat.div_div_eq_div_mul]
    rw [ofBytes, hs, ih, BitVec.toNat_ofNat, Fin.val_zero, Nat.pow_zero, Nat.div_one,
      Nat.pow_succ' (n := n), Nat.mod_mul (x := v)]

/-- A word of 64 bits with its lowest byte first. -/
def littleEndian : Representation (BitVec 64) 8 where
  bytes v i := BitVec.ofNat 8 (v.toNat / 256 ^ (i : ℕ))
  value b := BitVec.ofNat 64 (ofBytes b)
  value_bytes v := by
    rw [ofBytes_div, show 256 ^ 8 = 2 ^ 64 from rfl, Nat.mod_eq_of_lt v.isLt, BitVec.ofNat_toNat,
      BitVec.setWidth_eq]

end ActorsFramework.Lib
