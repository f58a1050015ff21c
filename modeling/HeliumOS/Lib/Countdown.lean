import Mathlib.Algebra.BigOperators.Intervals
import Mathlib.Data.Nat.ModEq

/-!
# Readings of a Wrapping Counter

A counter of `w` bits counts down and wraps around at zero.  All that is known of it is a sequence
of readings.  Two readings in a row give the number of ticks between them modulo `2 ^ w` (`drop`),
and `total` adds these up.

The first reading alone does not tell how far the counter has come.  The current reading is behind
it exactly when the counter has not wrapped since (`toNat_le_iff`), and only then is their
difference the total (`sub_eq_total`).
-/

namespace HeliumOS.Lib.Countdown

variable {w : ℕ} (r : ℕ → BitVec w)

/-- The ticks between reading `k` and the next one. -/
def drop (k : ℕ) : ℕ := (r k - r (k + 1)).toNat

/-- The ticks between the first reading and reading `k`. -/
def total (k : ℕ) : ℕ := ∑ m ∈ Finset.range k, drop r m

theorem total_zero : total r 0 = 0 := rfl

theorem total_succ (k : ℕ) : total r (k + 1) = total r k + drop r k :=
  Finset.sum_range_succ _ k

variable {r} {k : ℕ}

/-- The ticks of one step bring the next reading back to the one before. -/
theorem add_drop_modEq (k : ℕ) : (r (k + 1)).toNat + drop r k ≡ (r k).toNat [MOD 2 ^ w] := by
  have hback : r (k + 1) + (r k - r (k + 1)) = r k := by
    rw [BitVec.add_comm, BitVec.sub_add_cancel]
  rw [drop, Nat.ModEq, ← BitVec.toNat_add, hback, Nat.mod_eq_of_lt (r k).isLt]

theorem add_total_modEq (k : ℕ) : (r k).toNat + total r k ≡ (r 0).toNat [MOD 2 ^ w] := by
  induction k with
  | zero => rfl
  | succ k ih =>
    rw [total_succ, Nat.add_left_comm, Nat.add_comm]
    calc (r (k + 1)).toNat + drop r k + total r k
        ≡ (r k).toNat + total r k [MOD 2 ^ w] := (add_drop_modEq k).add_right _
      _ ≡ (r 0).toNat [MOD 2 ^ w] := ih

/-- Before a full turn the counter is at its start minus the total, or has wrapped once. -/
theorem toNat_add_total (h : total r k < 2 ^ w) :
    (r k).toNat + total r k = (r 0).toNat ∨ (r k).toNat + total r k = (r 0).toNat + 2 ^ w := by
  have hmod : ((r k).toNat + total r k) % 2 ^ w = (r 0).toNat := by
    rw [add_total_modEq k, Nat.mod_eq_of_lt (r 0).isLt]
  have hlt := (r k).isLt
  rcases Nat.lt_or_ge ((r k).toNat + total r k) (2 ^ w) with hno | hwrap
  · left
    rwa [Nat.mod_eq_of_lt hno] at hmod
  · right
    rw [Nat.mod_eq_sub_mod hwrap, Nat.mod_eq_of_lt (by omega)] at hmod
    omega

/-- The counter is not above its start exactly when it has not wrapped, if the total has not gone
once around. -/
theorem toNat_le_iff (h : total r k < 2 ^ w) :
    (r k).toNat ≤ (r 0).toNat ↔ total r k ≤ (r 0).toNat := by
  have hlt := (r k).isLt
  rcases toNat_add_total h with heq | heq <;> omega

/-- Without a wrap the distance to the start is the total. -/
theorem sub_eq_total (h : total r k < 2 ^ w) (hle : total r k ≤ (r 0).toNat) :
    (r 0).toNat - (r k).toNat = total r k := by
  have hlt := (r k).isLt
  rcases toNat_add_total h with heq | heq <;> omega

end HeliumOS.Lib.Countdown
