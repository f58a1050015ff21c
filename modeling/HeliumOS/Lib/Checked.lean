import Mathlib.Tactic.Common
import Mathlib.Algebra.Order.Ring.Nat

/-!
# Checked Fixed-Width Arithmetic

Unsigned arithmetic of a build in which overflow panics.  Every operation works on
natural numbers, carries the width of the machine type, and returns the error `e` that
its caller raises when the exact result does not fit.

The second half is about rounding to a power-of-two boundary.  `alignUp` and `alignDown`
are stated on `ℕ` for an arbitrary positive alignment.
-/

namespace HeliumOS.Lib

universe u v w

/-! ## Sequencing of fallible computations -/

section Sequencing

variable {ε : Type u} {α β : Type v}

/-- A sequence of two fallible computations returns exactly when both do. -/
theorem except_bind_eq_ok {x : Except ε α} {f : α → Except ε β} {b : β} :
    (x >>= f) = .ok b ↔ ∃ a, x = .ok a ∧ f a = .ok b := by
  cases x with
  | error e => simp [Bind.bind, Except.bind]
  | ok a => simp [Bind.bind, Except.bind]

@[simp] theorem except_ok_bind (a : α) (f : α → Except ε β) :
    ((Except.ok a : Except ε α) >>= f) = f a := rfl

@[simp] theorem except_error_bind (e : ε) (f : α → Except ε β) :
    ((Except.error e : Except ε α) >>= f) = .error e := rfl

end Sequencing

/-! ## Unwrapping and asserting -/

section Guards

variable {ε : Type u} {α : Type v}

/-- `unwrap`: the value, or the panic `e`. -/
def unwrap (e : ε) : Option α → Except ε α
  | some a => .ok a
  | none => .error e

@[simp] theorem unwrap_eq_ok {e : ε} {x : Option α} {a : α} :
    unwrap e x = .ok a ↔ x = some a := by
  cases x <;> simp [unwrap]

@[simp] theorem unwrap_some (e : ε) (a : α) : unwrap e (some a) = .ok a := rfl

/-- `assert!`: continue when `p` holds, panic with `e` otherwise. -/
def ensure (e : ε) (p : Prop) [Decidable p] : Except ε Unit :=
  if p then .ok () else .error e

@[simp] theorem ensure_eq_ok {e : ε} {p : Prop} [Decidable p] {u : Unit} :
    ensure e p = .ok u ↔ p := by
  by_cases h : p <;> simp [ensure, h]

/-- A guarded result is returned exactly when its guard holds. -/
theorem guard_eq_ok {e : ε} {p : Prop} [Decidable p] {a b : α} :
    (if p then .ok a else .error e : Except ε α) = .ok b ↔ p ∧ b = a := by
  split_ifs with h
  · simp [h, eq_comm]
  · simp [h]

theorem ensure_of {e : ε} {p : Prop} [Decidable p] (h : p) : ensure e p = .ok () := by
  simp [ensure, h]

end Guards

/-! ## Computations that end alike -/

section Outcomes

variable {ε : Type u} {α β γ δ : Type v} {R : α → β → Prop} {S : γ → δ → Prop}
  {x : Except ε α} {y : Except ε β}

/-- Both computations fail with the same error, or both return, with related results. -/
inductive SameOutcome (R : α → β → Prop) : Except ε α → Except ε β → Prop where
  | ok {a : α} {b : β} : R a b → SameOutcome R (.ok a) (.ok b)
  | error (e : ε) : SameOutcome R (.error e) (.error e)

namespace SameOutcome

theorem bind {f : α → Except ε γ} {g : β → Except ε δ} (h : SameOutcome R x y)
    (hfg : ∀ a b, R a b → SameOutcome S (f a) (g b)) : SameOutcome S (x >>= f) (y >>= g) := by
  cases h with
  | error e => exact .error e
  | ok hab => exact hfg _ _ hab

/-- A computation that both make first. -/
theorem bind_same {f : α → Except ε γ} {g : α → Except ε δ}
    (hfg : ∀ a, x = .ok a → SameOutcome S (f a) (g a)) : SameOutcome S (x >>= f) (x >>= g) := by
  cases x with
  | error e => exact .error e
  | ok a => exact hfg a rfl

/-- Only the second computation goes on. -/
theorem bind_right {S : α → δ → Prop} {g : β → Except ε δ} (h : SameOutcome R x y)
    (hg : ∀ a b, R a b → SameOutcome S (.ok a) (g b)) : SameOutcome S x (y >>= g) := by
  cases h with
  | error e => exact .error e
  | ok hab => exact hg _ _ hab

theorem of_ok_left (h : SameOutcome R x y) {a : α} (hx : x = .ok a) : ∃ b, y = .ok b ∧ R a b := by
  subst hx
  cases h with
  | ok hab => exact ⟨_, rfl, hab⟩

theorem of_ok_right (h : SameOutcome R x y) {b : β} (hy : y = .ok b) : ∃ a, x = .ok a ∧ R a b := by
  subst hy
  cases h with
  | ok hab => exact ⟨_, rfl, hab⟩

theorem error_iff (h : SameOutcome R x y) {e : ε} : x = .error e ↔ y = .error e := by
  cases h <;> simp

end SameOutcome

end Outcomes

/-! ## Checked operations -/

section Checked

variable {ε : Type u}

/-- `a + b` on `w`-bit words. -/
def checkedAdd (w : ℕ) (e : ε) (a b : ℕ) : Except ε ℕ :=
  if a + b < 2 ^ w then .ok (a + b) else .error e

/-- `a - b` on unsigned words. -/
def checkedSub (e : ε) (a b : ℕ) : Except ε ℕ :=
  if b ≤ a then .ok (a - b) else .error e

/-- `a * b` on `w`-bit words. -/
def checkedMul (w : ℕ) (e : ε) (a b : ℕ) : Except ε ℕ :=
  if a * b < 2 ^ w then .ok (a * b) else .error e

@[simp] theorem checkedAdd_eq_ok {w : ℕ} {e : ε} {a b c : ℕ} :
    checkedAdd w e a b = .ok c ↔ a + b < 2 ^ w ∧ c = a + b :=
  guard_eq_ok

@[simp] theorem checkedSub_eq_ok {e : ε} {a b c : ℕ} :
    checkedSub e a b = .ok c ↔ b ≤ a ∧ c = a - b :=
  guard_eq_ok

@[simp] theorem checkedMul_eq_ok {w : ℕ} {e : ε} {a b c : ℕ} :
    checkedMul w e a b = .ok c ↔ a * b < 2 ^ w ∧ c = a * b :=
  guard_eq_ok

end Checked

/-! ## Rounding -/

/-- The largest multiple of `n` that is at most `a`. -/
def alignDown (a n : ℕ) : ℕ := a / n * n

/-- The smallest multiple of `n` that is at least `a`. -/
def alignUp (a n : ℕ) : ℕ := (a + (n - 1)) / n * n

theorem alignDown_of_dvd {a n : ℕ} (h : n ∣ a) : alignDown a n = a := Nat.div_mul_cancel h

theorem dvd_alignUp (a n : ℕ) : n ∣ alignUp a n := Dvd.intro_left _ rfl

theorem le_alignUp {a n : ℕ} (hn : 0 < n) : a ≤ alignUp a n := by
  have hdiv : n * ((a + (n - 1)) / n) + (a + (n - 1)) % n = a + (n - 1) :=
    Nat.div_add_mod _ _
  have hmod : (a + (n - 1)) % n < n := Nat.mod_lt _ hn
  unfold alignUp
  rw [Nat.mul_comm]
  omega

theorem alignUp_of_dvd {a n : ℕ} (hn : 0 < n) (h : n ∣ a) : alignUp a n = a := by
  obtain ⟨k, rfl⟩ := h
  unfold alignUp
  rw [Nat.mul_add_div hn, Nat.div_eq_of_lt (by omega), Nat.add_zero, Nat.mul_comm]

/-- `align_up` on `w`-bit words: the rounding must not pass the top of the word. -/
def checkedAlignUp {ε : Type u} (w : ℕ) (e : ε) (a n : ℕ) : Except ε ℕ :=
  if alignUp a n < 2 ^ w then .ok (alignUp a n) else .error e

@[simp] theorem checkedAlignUp_eq_ok {ε : Type u} {w : ℕ} {e : ε} {a n c : ℕ} :
    checkedAlignUp w e a n = .ok c ↔ alignUp a n < 2 ^ w ∧ c = alignUp a n :=
  guard_eq_ok

end HeliumOS.Lib
