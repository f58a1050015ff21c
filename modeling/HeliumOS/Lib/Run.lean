import Mathlib.Tactic.TypeStar
import Mathlib.Data.Nat.Notation

/-!
# Runs of a Labelled Transition System

`Run step s es s'` leads from `s` to `s'` by steps with the labels `es`.

- `Run.invariant` carries a property of the states along a run.  It may depend on the number of
  steps made so far, and the step may use the bound on the length of the whole run.
- `Guarded` restricts a system to the steps that meet a condition.
-/

namespace HeliumOS.Lib

variable {σ ε : Type*}

/-- Runs, built up at their end. -/
inductive Run (step : σ → ε → σ → Prop) : σ → List ε → σ → Prop where
  | nil (s : σ) : Run step s [] s
  | snoc {s s₁ s' : σ} {es : List ε} {e : ε} :
      Run step s es s₁ → step s₁ e s' → Run step s (es ++ [e]) s'

namespace Run

variable {step step' : σ → ε → σ → Prop} {s s' : σ} {es : List ε}

theorem invariant {I : ℕ → σ → Prop} (h : Run step s es s') (hstart : I 0 s)
    (hstep : ∀ n s₁ e s₂, n < es.length → I n s₁ → step s₁ e s₂ → I (n + 1) s₂) :
    I es.length s' := by
  induction h with
  | nil => exact hstart
  | snoc _ hlast ih =>
    rw [List.length_append] at hstep ⊢
    refine hstep _ _ _ _ (Nat.lt_succ_self _) (ih fun n s₁ e s₂ hn => ?_) hlast
    exact hstep n s₁ e s₂ (Nat.lt_succ_of_lt hn)

/-- A property of states that every step keeps. -/
theorem preserves {I : σ → Prop} (h : Run step s es s') (hstart : I s)
    (hstep : ∀ s₁ e s₂, I s₁ → step s₁ e s₂ → I s₂) : I s' :=
  h.invariant (I := fun _ => I) hstart fun _ s₁ e s₂ _ => hstep s₁ e s₂

/-- What every step from a state with an invariant says about its label. -/
theorem forall_labels {I : σ → Prop} {P : ε → Prop} (h : Run step s es s') (hstart : I s)
    (hstep : ∀ s₁ e s₂, I s₁ → step s₁ e s₂ → P e ∧ I s₂) : ∀ e ∈ es, P e := by
  induction h with
  | nil => simp
  | snoc hrun hlast ih =>
    intro e he
    rcases List.mem_append.mp he with he | he
    · exact ih e he
    · rw [List.mem_singleton.mp he]
      exact (hstep _ _ _ (hrun.preserves hstart fun _ _ _ hI h => (hstep _ _ _ hI h).2) hlast).1

/-- Two runs, one after the other. -/
theorem append {es' : List ε} {s'' : σ} (h : Run step s es s') (h' : Run step s' es' s'') :
    Run step s (es ++ es') s'' := by
  induction h' with
  | nil => simpa using h
  | snoc _ hlast ih =>
    rw [← List.append_assoc]
    exact .snoc ih hlast

/-- A run, cut in two. -/
theorem exists_of_append {es' : List ε} (h : Run step s (es ++ es') s') :
    ∃ s₁, Run step s es s₁ ∧ Run step s₁ es' s' := by
  generalize hlabels : es ++ es' = labels at h
  induction h generalizing es' with
  | nil =>
    obtain ⟨rfl, rfl⟩ := List.append_eq_nil_iff.mp hlabels
    exact ⟨s, .nil s, .nil s⟩
  | @snoc s₁ s' labels e hrun hlast ih =>
    -- the last label is that of the second part, unless this is empty
    rcases List.eq_nil_or_concat es' with rfl | ⟨es'', e', rfl⟩
    · rw [List.append_nil] at hlabels
      exact ⟨s', hlabels ▸ hrun.snoc hlast, .nil s'⟩
    · rw [List.concat_eq_append] at hlabels ⊢
      rw [← List.append_assoc] at hlabels
      obtain ⟨hinit, hend⟩ := List.append_inj' hlabels rfl
      cases hend
      obtain ⟨s₂, hfirst, hrest⟩ := ih hinit
      exact ⟨s₂, hfirst, hrest.snoc hlast⟩

theorem eq_of_nil (h : Run step s [] s') : s' = s := by
  generalize hlabels : ([] : List ε) = labels at h
  cases h with
  | nil => rfl
  | snoc => simp at hlabels

/-- A run that starts with a given step. -/
theorem exists_of_cons {e : ε} (h : Run step s (e :: es) s') :
    ∃ s₁, step s e s₁ ∧ Run step s₁ es s' := by
  obtain ⟨s₁, hfirst, hrest⟩ := exists_of_append (show Run step s ([e] ++ es) s' from h)
  refine ⟨s₁, ?_, hrest⟩
  generalize hlabels : [e] = labels at hfirst
  cases hfirst with
  | nil => cases hlabels
  | @snoc s₂ _ labels e' hrun hlast =>
    obtain ⟨hinit, hend⟩ := List.append_inj' (show [] ++ [e] = labels ++ [e'] from hlabels) rfl
    cases hinit
    cases hend
    rwa [eq_of_nil hrun] at hlast

theorem single {e : ε} (h : step s e s') : Run step s [e] s' := .snoc (.nil s) h

theorem mono (h : Run step s es s') (hstep : ∀ s₁ e s₂, step s₁ e s₂ → step' s₁ e s₂) :
    Run step' s es s' := by
  induction h with
  | nil => exact .nil _
  | snoc _ hlast ih => exact .snoc ih (hstep _ _ _ hlast)

end Run

/-- The steps that start in a state, and with a label, that satisfy `G`. -/
def Guarded (step : σ → ε → σ → Prop) (G : σ → ε → Prop) (s : σ) (e : ε) (s' : σ) : Prop :=
  step s e s' ∧ G s e

/-- In a run every step has one of its labels. -/
theorem Run.guarded_mem {step : σ → ε → σ → Prop} {s s' : σ} {es : List ε}
    (h : Run step s es s') : Run (Guarded step fun _ e => e ∈ es) s es s' := by
  induction h with
  | nil => exact .nil _
  | snoc _ hlast ih =>
    refine .snoc (ih.mono fun _ _ _ hstep => ?_) ⟨hlast, by simp⟩
    exact ⟨hstep.1, List.mem_append_left _ hstep.2⟩

/-! ## Two systems -/

section TwoSystems

variable {τ δ : Type*} {step : σ → ε → σ → Prop} {step' : τ → δ → τ → Prop} {f : σ → τ} {g : ε → δ}
  {I : σ → Prop} {s s' : σ} {es : List ε} {t : τ}

/-- A run seen through `f`, when every step is one of the other system. -/
theorem Run.map (h : Run step s es s') (hs : I s)
    (hforth : ∀ s e s', I s → step s e s' → step' (f s) (g e) (f s') ∧ I s') :
    Run step' (f s) (es.map g) (f s') ∧ I s' := by
  induction h with
  | nil => exact ⟨.nil _, hs⟩
  | snoc _ hlast ih =>
    obtain ⟨hrun, hI⟩ := ih
    obtain ⟨hstep, hI'⟩ := hforth _ _ _ hI hlast
    rw [List.map_append]
    exact ⟨hrun.snoc hstep, hI'⟩

/-- Two systems with the same steps, up to `f`, have the same runs. -/
theorem Run.map_iff (hs : I s)
    (hforth : ∀ s e s', I s → step s e s' → step' (f s) (g e) (f s') ∧ I s')
    (hback : ∀ s e t, I s → step' (f s) (g e) t → ∃ s', step s e s' ∧ f s' = t) :
    (∃ s', Run step s es s' ∧ f s' = t) ↔ Run step' (f s) (es.map g) t := by
  constructor
  · rintro ⟨s', hrun, rfl⟩
    exact (hrun.map hs hforth).1
  · intro h
    induction es generalizing s with
    | nil => exact ⟨s, .nil s, (Run.eq_of_nil h).symm⟩
    | cons e es ih =>
      obtain ⟨t₁, hfirst, hrest⟩ := Run.exists_of_cons h
      obtain ⟨s₁, hstep, rfl⟩ := hback s e t₁ hs hfirst
      obtain ⟨s', hrun, hf⟩ := ih (hforth s e s₁ hs hstep).2 hrest
      exact ⟨s', (Run.single hstep).append hrun, hf⟩

end TwoSystems

/-! ## Iterators -/

/-- The items that an iterator yields before it ends. -/
inductive Yields {α : Type*} (next : σ → Except ε (Option (α × σ))) : σ → List α → Prop where
  | done {s : σ} : next s = .ok none → Yields next s []
  | more {s s' : σ} {a : α} {as : List α} :
      next s = .ok (some (a, s')) → Yields next s' as → Yields next s (a :: as)

theorem Yields.unique {α : Type*} {next : σ → Except ε (Option (α × σ))} {s : σ} {as bs : List α}
    (h : Yields next s as) (h' : Yields next s bs) : as = bs := by
  induction h generalizing bs with
  | done hnone =>
    cases h' with
    | done => rfl
    | more hsome => cases hnone.symm.trans hsome
  | more hsome _ ih =>
    cases h' with
    | done hnone => cases hsome.symm.trans hnone
    | more hsome' hrest =>
      cases hsome.symm.trans hsome'
      rw [ih hrest]

/-- An iterator that does not move does not end. -/
theorem Yields.not_of_self {α : Type*} {next : σ → Except ε (Option (α × σ))} {s : σ} {a : α}
    {as : List α} (hself : next s = .ok (some (a, s))) : ¬ Yields next s as := by
  intro h
  have hlength := congrArg List.length (h.unique (.more hself h))
  simp at hlength

end HeliumOS.Lib
