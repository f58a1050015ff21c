import Mathlib.Tactic.TypeStar
import Mathlib.Data.Nat.Notation
import Mathlib.Logic.Relation

/-!
# Loops that Break

`loop step` repeats a step that may fail until it breaks.  Every turn has to make a measure smaller,
so that the loop ends.

The loop is unfolded one turn at a time by `loop_of_break` and `loop_of_turn`.  `loop_eq_ok` says
what it returns in terms of the states that its turns lead to, `exists_loop_eq_ok` when it returns,
and `loop_simulates` compares two loops.

A loop that waits for an answer from outside has no such measure, and may never end.  `poll step n`
is its first `n` turns.  `poll_of_waits` skips the turns that have to wait, and the turn that
decides is found by `poll_eq_some` and `poll_of_error`.
-/

namespace HeliumOS.Lib

variable {σ ε : Type*}

/-- Every turn makes the measure smaller. -/
def Progresses (step : σ → Except ε (Option σ)) (size : σ → ℕ) : Prop :=
  ∀ s s', step s = .ok (some s') → size s' < size s

/-- `loop { .. }`, where the step gives the next state, or `none` to break. -/
def loop (step : σ → Except ε (Option σ)) (size : σ → ℕ) (hsize : Progresses step size) (s : σ) :
    Except ε σ :=
  match h : step s with
  | .error e => .error e
  | .ok none => .ok s
  | .ok (some s') =>
    have := hsize s s' h
    loop step size hsize s'
termination_by size s

section Turns

variable {step : σ → Except ε (Option σ)} {size : σ → ℕ} {hsize : Progresses step size} {s s' : σ}

theorem loop_of_break (h : step s = .ok none) : loop step size hsize s = .ok s := by
  rw [loop]
  split <;> simp_all

theorem loop_of_turn (h : step s = .ok (some s')) :
    loop step size hsize s = loop step size hsize s' := by
  rw [loop]
  split <;> simp_all

/-- One turn that does not break. -/
def Turn (step : σ → Except ε (Option σ)) (s s' : σ) : Prop := step s = .ok (some s')

theorem loop_of_turns (h : Relation.ReflTransGen (Turn step) s s') :
    loop step size hsize s = loop step size hsize s' := by
  induction h with
  | refl => rfl
  | tail _ hturn ih => exact ih.trans (loop_of_turn hturn)

theorem loop_of_error {e : ε} (h : step s = .error e) : loop step size hsize s = .error e := by
  rw [loop]
  split <;> simp_all

/-- The loop returns the state that it breaks in. -/
theorem loop_eq_ok : loop step size hsize s = .ok s' ↔
    Relation.ReflTransGen (Turn step) s s' ∧ step s' = .ok none := by
  constructor
  · induction hn : size s using Nat.strongRecOn generalizing s with
    | ind n ih =>
      intro h
      match hstep : step s with
      | .error e =>
        rw [loop_of_error hstep] at h
        cases h
      | .ok none =>
        rw [loop_of_break hstep] at h
        cases h
        exact ⟨.refl, hstep⟩
      | .ok (some t) =>
        rw [loop_of_turn hstep] at h
        obtain ⟨hturns, hbreak⟩ := ih (size t) (hn ▸ hsize s t hstep) rfl h
        exact ⟨.head hstep hturns, hbreak⟩
  · rintro ⟨hturns, hbreak⟩
    rw [loop_of_turns hturns, loop_of_break hbreak]

/-- A loop that returns has not failed anywhere on its way. -/
theorem exists_step_of_loop {t : σ} (h : loop step size hsize s = .ok t)
    (hturns : Relation.ReflTransGen (Turn step) s s') : ∃ r, step s' = .ok r := by
  match hstep : step s' with
  | .error e =>
    rw [loop_of_turns hturns, loop_of_error hstep] at h
    cases h
  | .ok r => exact ⟨r, rfl⟩

/-- A loop returns when no step on its way fails. -/
theorem exists_loop_eq_ok (h : ∀ t, Relation.ReflTransGen (Turn step) s t → ∃ r, step t = .ok r) :
    ∃ t, loop step size hsize s = .ok t := by
  induction hn : size s using Nat.strongRecOn generalizing s with
  | ind n ih =>
    obtain ⟨r, hr⟩ := h s .refl
    cases r with
    | none => exact ⟨s, loop_of_break hr⟩
    | some t =>
      rw [loop_of_turn hr]
      exact ih (size t) (hn ▸ hsize s t hr) (fun u hu => h u (.head hr hu)) rfl

/-- Two loops whose turns correspond to each other. -/
theorem loop_simulates {τ : Type*} {step' : τ → Except ε (Option τ)} {size' : τ → ℕ}
    {hsize' : Progresses step' size'} {R : σ → τ → Prop} {t : τ}
    (hturn : ∀ ⦃s₁ t₁ s₂⦄, R s₁ t₁ → Turn step s₁ s₂ → ∃ t₂, Turn step' t₁ t₂ ∧ R s₂ t₂)
    (hbreak : ∀ ⦃s₁ t₁⦄, R s₁ t₁ → step s₁ = .ok none → step' t₁ = .ok none)
    (hR : R s t) (h : loop step size hsize s = .ok s') :
    ∃ t', loop step' size' hsize' t = .ok t' ∧ R s' t' := by
  obtain ⟨hturns, hend⟩ := loop_eq_ok.mp h
  suffices h : ∃ t', Relation.ReflTransGen (Turn step') t t' ∧ R s' t' by
    obtain ⟨t', hturns', hR'⟩ := h
    exact ⟨t', loop_eq_ok.mpr ⟨hturns', hbreak hR' hend⟩, hR'⟩
  clear h hend
  induction hturns with
  | refl => exact ⟨t, .refl, hR⟩
  | tail _ hlast ih =>
    obtain ⟨t₁, hturns', hR₁⟩ := ih
    obtain ⟨t₂, hlast', hR₂⟩ := hturn hR₁ hlast
    exact ⟨t₂, hturns'.tail hlast', hR₂⟩

end Turns

/-! ## Waiting for an answer -/

section Polling

variable {α : Type*}

/-- `n` turns of a loop that asks again until it is answered.  Turn `k` asks `step k`, and the
answer comes with the number of its turn. -/
def poll (step : ℕ → Except ε (Option α)) : (n k : ℕ) → Except ε (Option (ℕ × α))
  | 0, _ => .ok none
  | n + 1, k =>
    match step k with
    | .error e => .error e
    | .ok (some a) => .ok (some (k, a))
    | .ok none => poll step n (k + 1)

/-- Turns `k` up to `m` have to wait. -/
def Waits (step : ℕ → Except ε (Option α)) (k m : ℕ) : Prop :=
  ∀ j, k ≤ j → j < m → step j = .ok none

variable {step : ℕ → Except ε (Option α)} {n k m : ℕ} {a : α} {e : ε}

theorem poll_of_waits {d : ℕ} (hwaits : Waits step k (k + d)) :
    poll step (d + n) k = poll step n (k + d) := by
  induction d generalizing k with
  | zero => rw [Nat.zero_add, Nat.add_zero]
  | succ d ih =>
    have hfirst : step k = .ok none := hwaits k (Nat.le_refl k) (by omega)
    have hrest : Waits step (k + 1) (k + 1 + d) :=
      fun j hlo hhi => hwaits j (by omega) (by omega)
    rw [Nat.succ_add, poll, hfirst]
    simp only
    rw [ih hrest, Nat.succ_add_eq_add_succ]

/-- The loop fails in the first turn that does not wait. -/
theorem poll_of_error (hlo : k ≤ m) (hhi : m < k + n) (hwaits : Waits step k m)
    (h : step m = .error e) : poll step n k = .error e := by
  obtain ⟨d, rfl⟩ := Nat.exists_eq_add_of_le hlo
  obtain ⟨r, rfl⟩ := Nat.exists_eq_add_of_lt (Nat.add_lt_add_iff_left.mp hhi)
  rw [Nat.add_assoc, poll_of_waits hwaits, poll, h]

/-- A loop whose turns do not fail does not either. -/
theorem poll_ne_error (h : ∀ j, step j ≠ .error e) : poll step n k ≠ .error e := by
  induction n generalizing k with
  | zero => simp [poll]
  | succ n ih =>
    rw [poll]
    match hstep : step k with
    | .error e' =>
      intro heq
      cases heq
      exact h k hstep
    | .ok (some b) => simp
    | .ok none => exact ih

/-- The loop waits as long as all of its turns do. -/
theorem poll_of_waits_all (hwaits : Waits step k (k + n)) : poll step n k = .ok none :=
  poll_of_waits (n := 0) hwaits

/-- The loop ends with the first answer. -/
theorem poll_eq_some : poll step n k = .ok (some (m, a)) ↔
    k ≤ m ∧ m < k + n ∧ Waits step k m ∧ step m = .ok (some a) := by
  constructor
  -- induction on the turns that are left
  · induction n generalizing k with
    | zero => simp [poll]
    | succ n ih =>
      intro h
      rw [poll] at h
      match hstep : step k with
      | .error e =>
        rw [hstep] at h
        cases h
      | .ok (some b) =>
        rw [hstep] at h
        cases h
        exact ⟨Nat.le_refl _, by omega, fun j hlo hhi => absurd hlo (Nat.not_le.mpr hhi), hstep⟩
      | .ok none =>
        rw [hstep] at h
        obtain ⟨hlo, hhi, hwaits, hanswer⟩ := ih h
        refine ⟨by omega, by omega, fun j hj hjm => ?_, hanswer⟩
        rcases Nat.eq_or_lt_of_le hj with rfl | hlt
        · exact hstep
        · exact hwaits j hlt hjm
  · rintro ⟨hlo, hhi, hwaits, hanswer⟩
    obtain ⟨d, rfl⟩ := Nat.exists_eq_add_of_le hlo
    obtain ⟨r, rfl⟩ := Nat.exists_eq_add_of_lt (Nat.add_lt_add_iff_left.mp hhi)
    rw [Nat.add_assoc, poll_of_waits hwaits, poll, hanswer]

end Polling

end HeliumOS.Lib
