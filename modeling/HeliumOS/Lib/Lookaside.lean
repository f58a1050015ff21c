import Mathlib.Data.Nat.Notation
import Mathlib.Logic.Function.Basic
import Mathlib.Tactic.TypeStar

/-!
# Lookaside Buffers

A processor keeps translations that it has looked up, and it may do so at any time.  It may also
forget one at any time.  What it never does is to notice that the tables have changed.

- `Drift` is what the processor may do to its buffer by itself.
- `Coherent` says of one key that the buffer is not behind the tables.  The processor then finds
  what the tables say (`Coherent.lookup_eq`).
- `flush` makes one key coherent, and `keepOnly` all keys but those that it keeps.
-/

namespace HeliumOS.Lib

/-- A buffer of translations from `π` to `τ`. -/
abbrev Lookaside (π τ : Type*) := π → Option τ

namespace Lookaside

variable {π τ : Type*} {look : π → Option τ} {c : Lookaside π τ} {q r : π}

/-- Every key keeps its translation, loses it, or is looked up in the tables. -/
def Drift (look : π → Option τ) (c c' : Lookaside π τ) : Prop :=
  ∀ q, c' q = c q ∨ c' q = none ∨ c' q = look q

/-- The buffer holds nothing for the key, or what the tables hold. -/
def Coherent (look : π → Option τ) (c : Lookaside π τ) (q : π) : Prop :=
  c q = none ∨ c q = look q

/-- What the processor uses: the buffer first, and then the tables. -/
def lookup (c : Lookaside π τ) (look : π → Option τ) (q : π) : Option τ := (c q).or (look q)

/-- Forget one key. -/
def flush [DecidableEq π] (c : Lookaside π τ) (q : π) : Lookaside π τ := Function.update c q none

/-- Forget every translation but those that are to be kept. -/
def keepOnly (keep : τ → Bool) (c : Lookaside π τ) : Lookaside π τ := fun q => (c q).filter keep

/-- The processor that looks up every key as soon as it can. -/
def fill (look : π → Option τ) (c : Lookaside π τ) : Lookaside π τ := fun q => (c q).or (look q)

theorem drift_fill : Drift look c (fill look c) := by
  intro q
  unfold fill
  cases c q with
  | none => exact .inr (.inr rfl)
  | some t => exact .inl rfl

/-- With a coherent key the buffer cannot be told from the tables. -/
theorem Coherent.lookup_eq (h : Coherent look c q) : lookup c look q = look q := by
  unfold lookup
  rcases h with hnone | hsame
  · rw [hnone, Option.none_or]
  · rw [hsame]
    cases look q <;> rfl

section Flush

variable [DecidableEq π]

theorem coherent_flush_self : Coherent look (c.flush q) q := .inl (Function.update_self ..)

/-- Flushing changes nothing for the other keys. -/
theorem flush_eq_or : c.flush r q = c q ∨ Coherent look (c.flush r) q := by
  by_cases hq : q = r
  · exact .inr (hq ▸ coherent_flush_self)
  · exact .inl (Function.update_of_ne hq ..)

end Flush

section KeepOnly

variable {keep : τ → Bool}

/-- A key keeps its translation or loses it. -/
theorem keepOnly_eq_or : c.keepOnly keep q = c q ∨ Coherent look (c.keepOnly keep) q := by
  unfold Coherent keepOnly
  cases hc : c q with
  | none => exact .inl rfl
  | some t =>
    by_cases hkeep : keep t = true
    · exact .inl (by simp [hkeep])
    · exact .inr (.inl (by simp [hkeep]))

/-- What is left was to be kept. -/
theorem keepOnly_eq_some {t : τ} (h : c.keepOnly keep q = some t) : keep t = true := by
  unfold keepOnly at h
  exact (Option.filter_eq_some_iff.mp h).2

end KeepOnly

end Lookaside

end HeliumOS.Lib
