import HeliumOS.Lib.AllocProg

/-!
# Refinement of Programs over a Pool

`Refines R M x y F`: with the resources `F` free, the programs `x` and `y` ask the pool for the
same things, fail together with the same error, and return values that are related by `R`.

- `Refines.bind`: programs in sequence.
- `Refines.run`: against a pool that refines its free set, the two programs have the same
  outcome and leave the same pool.
-/

namespace HeliumOS.Lib.AllocProg

variable {σ ρ ε α β γ δ : Type} {M F : Set ρ}

/-- Two programs with the same effects and related results. -/
inductive Refines (R : α → β → Set ρ → Prop) (M : Set ρ) :
    AllocProg ρ ε α → AllocProg ρ ε β → Set ρ → Prop where
  | pure {a : α} {b : β} {F : Set ρ} (h : R a b F) : Refines R M (.pure a) (.pure b) F
  | fail {e : ε} {F : Set ρ} : Refines R M (.fail e) (.fail e) F
  | acquire {k : Option ρ → AllocProg ρ ε α} {k' : Option ρ → AllocProg ρ ε β} {F : Set ρ}
      (hsome : ∀ r ∈ F, Refines R M (k (some r)) (k' (some r)) (F \ {r}))
      (hnone : F = ∅ → Refines R M (k none) (k' none) F) :
      Refines R M (.acquire k) (.acquire k') F
  | release {r : ρ} {k : AllocProg ρ ε α} {k' : AllocProg ρ ε β} {F : Set ρ}
      (h : Refines R M k k' (F ∪ ({r} ∩ M))) : Refines R M (.release r k) (.release r k') F

namespace Refines

variable {R R' : α → β → Set ρ → Prop} {x : AllocProg ρ ε α} {y : AllocProg ρ ε β}

theorem mono (h : Refines R M x y F) (hR : ∀ a b F', R a b F' → R' a b F') :
    Refines R' M x y F := by
  induction h with
  | pure h => exact .pure (hR _ _ _ h)
  | fail => exact .fail
  | acquire _ _ ihsome ihnone => exact .acquire ihsome ihnone
  | release _ ih => exact .release ih

/-- The second halves may rely on what the plain program has returned. -/
theorem bind {S : γ → δ → Set ρ → Prop} {f : α → AllocProg ρ ε γ} {g : β → AllocProg ρ ε δ}
    (h : Refines R M x y F)
    (hfg : ∀ a b F', R a b F' → Returns M y F b F' → Refines S M (f a) (g b) F') :
    Refines S M (x >>= f) (y >>= g) F := by
  induction h with
  | pure h => exact hfg _ _ _ h (returns_pure'.mpr ⟨rfl, rfl⟩)
  | fail => exact .fail
  | acquire _ _ ihsome ihnone =>
    refine .acquire (fun r hr => ihsome r hr ?_) fun hF => ihnone hF ?_
    · exact fun a b F' hab hret => hfg a b F' hab (returns_acquire.mpr (.inl ⟨r, hr, hret⟩))
    · exact fun a b F' hab hret => hfg a b F' hab (returns_acquire.mpr (.inr ⟨hF, hret⟩))
  | release _ ih =>
    exact .release (ih fun a b F' hab hret => hfg a b F' hab (by rw [Returns]; exact hret))

/-- A step without pool effects that both programs take. -/
theorem lift_bind {S : γ → δ → Set ρ → Prop} {u : Except ε α} {f : α → AllocProg ρ ε γ}
    {g : α → AllocProg ρ ε δ} (hfg : ∀ a, u = .ok a → Refines S M (f a) (g a) F) :
    Refines S M ((liftM u : AllocProg ρ ε α) >>= f) ((liftM u : AllocProg ρ ε α) >>= g) F := by
  cases u with
  | error e => exact .fail
  | ok a => exact hfg a rfl

/-- Run against the same pool, the programs end alike. -/
theorem run {P : Pool σ ρ ε} (S : P.FreeSet) {s : σ} (hs : S.Sound s)
    (h : Refines R (S.managed s) x y (S.free s)) :
    (∃ e, x.run P s = .error e ∧ y.run P s = .error e) ∨
      ∃ a b s', x.run P s = .ok (a, s') ∧ y.run P s = .ok (b, s') ∧ R a b (S.free s') := by
  generalize hM : S.managed s = M at h
  generalize hF : S.free s = F at h
  -- induction on the pair of programs; the pool answers both in the same way
  induction h generalizing s with
  | pure h => exact .inr ⟨_, _, s, rfl, rfl, hF ▸ h⟩
  | fail => exact .inl ⟨_, rfl, rfl⟩
  | acquire _ _ ihsome ihnone =>
    simp only [AllocProg.run]
    cases hacq : P.acquire s with
    | error e => exact .inl ⟨e, rfl, rfl⟩
    | ok rs =>
      obtain ⟨r, s₁⟩ := rs
      cases r with
      | none =>
        obtain ⟨hempty, rfl⟩ := S.acquire_none hs hacq
        exact ihnone (hF ▸ hempty) hs hM hF
      | some r =>
        obtain ⟨hr, hs₁, hfree, hman⟩ := S.acquire_some hs hacq
        exact ihsome r (hF ▸ hr) hs₁ (hman.trans hM) (hF ▸ hfree)
  | release _ ih =>
    simp only [AllocProg.run]
    cases hrel : P.release s _ with
    | error e => exact .inl ⟨e, rfl, rfl⟩
    | ok s₁ =>
      obtain ⟨hs₁, hfree, hman⟩ := S.release_ok hs hrel
      exact ih hs₁ (hman.trans hM) (by rw [hfree, hF, hM])

end Refines

end HeliumOS.Lib.AllocProg
