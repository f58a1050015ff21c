import HeliumOS.Lib.AllocProg

/-!
# Programs That Follow a Plan

A program over a pool of resources may also have a state, and give up for a reason of its own.  A
*plan* describes such a program on an abstract state and without a pool.  It is deterministic: it
returns, fails, gives up as the program does, or says nothing.

`Follows R W c M x y t`: from the states that `R` relates to `t`, the program `x` does what the plan
`y` does at `t`.  This has two halves.

- `returns`: what a run of the program returns is what the plan says.  In particular a program whose
  plan fails does not return.
- `budget`: with enough resources the program does return, unless its plan fails.  `W k` says of a
  state and of what is free that programs which take `k` resources can be run, and the plan knows
  how many it takes: `c` counts them on the abstract states.

The rules are those of the constructs that programs are made of: `Follows.pure`, `Follows.lift`,
`Follows.halt`, `Follows.read`, `Follows.bind` and `Follows.forM`.
-/

namespace HeliumOS.Lib

open AllocProg

/-- Why a plan stops before its end. -/
inductive Stop (η τ : Type) where
  /-- The program fails. -/
  | fails
  /-- The program gives up, in this state. -/
  | halts (reason : η) (t : τ)
  /-- The plan does not say what the program does from here on. -/
  | unknown

/-- Programs over a pool with a state `σ`, which may give up with an `η`. -/
def Impl (σ ρ ε η α : Type) : Type := σ → AllocProg ρ ε (Except η (α × σ))

/-- Plans on a state `τ`. -/
def Plan (τ η α : Type) : Type := τ → Except (Stop η τ) (α × τ)

variable {σ τ ρ ε η α β : Type}

namespace Impl

/-- Go on with a result.  A program that gives up leaves no state. -/
def resume (f : α → Impl σ ρ ε η β) : Except η (α × σ) → AllocProg ρ ε (Except η (β × σ))
  | .ok (a, s) => f a s
  | .error reason => return .error reason

instance : Monad (Impl σ ρ ε η) where
  pure a := fun s => return .ok (a, s)
  bind x f := fun s => x s >>= resume f

/-- A computation that uses neither the state nor the pool. -/
def lift (e : Except ε α) : Impl σ ρ ε η α := fun s => do
  let a ← e
  return .ok (a, s)

/-- Give up. -/
def halt (reason : η) : Impl σ ρ ε η α := fun _ => return .error reason

/-- Look at the state. -/
def read (f : σ → α) : Impl σ ρ ε η α := fun s => return .ok (f s, s)

theorem bind_apply (x : Impl σ ρ ε η α) (f : α → Impl σ ρ ε η β) (s : σ) :
    (x >>= f) s = x s >>= resume f := rfl

end Impl

namespace Plan

instance : Monad (Plan τ η) where
  pure a := fun t => .ok (a, t)
  bind y g := fun t => y t >>= fun r => g r.1 r.2

def lift (e : Except ε α) : Plan τ η α := fun t =>
  match e with
  | .ok a => .ok (a, t)
  | .error _ => .error .fails

def halt (reason : η) : Plan τ η α := fun t => .error (.halts reason t)

def read (g : τ → α) : Plan τ η α := fun t => .ok (g t, t)

/-- The state at the end of a plan, if it knows one. -/
def final : Except (Stop η τ) (α × τ) → Option τ
  | .ok (_, t) => some t
  | .error (.halts _ t) => some t
  | .error _ => none

@[simp] theorem pure_apply (a : α) (t : τ) : (Pure.pure a : Plan τ η α) t = .ok (a, t) := rfl

@[simp] theorem lift_error (e : ε) (t : τ) :
    (lift (.error e : Except ε α) : Plan τ η α) t = .error .fails := rfl

@[simp] theorem halt_apply (reason : η) (t : τ) :
    (halt reason : Plan τ η α) t = .error (.halts reason t) := rfl

@[simp] theorem final_ok (a : α) (t : τ) :
    final (.ok (a, t) : Except (Stop η τ) (α × τ)) = some t := rfl

theorem bind_apply (y : Plan τ η α) (g : α → Plan τ η β) (t : τ) :
    (y >>= g) t = y t >>= fun r => g r.1 r.2 := rfl

theorem bind_of_ok {y : Plan τ η α} {g : α → Plan τ η β} {t t' : τ} {a : α}
    (h : y t = .ok (a, t')) :
    (y >>= g) t = g a t' := by
  rw [bind_apply, h, except_ok_bind]

theorem bind_of_error {y : Plan τ η α} {g : α → Plan τ η β} {t : τ} {e : Stop η τ}
    (h : y t = .error e) : (y >>= g) t = .error e := by
  rw [bind_apply, h]
  rfl

end Plan

/-- What the plan says of a result of the program. -/
def Agrees (R : σ → τ → Set ρ → Prop) (p : Except (Stop η τ) (α × τ)) (F : Set ρ) :
    Except η (α × σ) → Prop
  | .ok (a, s) => ∃ t, p = .ok (a, t) ∧ R s t F
  | .error reason => ∃ t, p = .error (.halts reason t)

section Agrees

variable {R : σ → τ → Set ρ → Prop} {F : Set ρ} {r : Except η (α × σ)}

@[simp] theorem not_agrees_fails : ¬ Agrees R (.error .fails) F r := by
  cases r <;> simp [Agrees]

end Agrees

/-- The program `x` does what the plan `y` does at `t`. -/
structure Follows (R : σ → τ → Set ρ → Prop) (W : ℕ → σ → Set ρ → Prop) (c : τ → ℕ) (M : Set ρ)
    (x : Impl σ ρ ε η α) (y : Plan τ η α) (t : τ) : Prop where
  returns : ∀ {s F r F'}, R s t F → Returns M (x s) F r F' →
    y t = .error .unknown ∨ Agrees R (y t) F' r
  budget : ∀ {t'}, Plan.final (y t) = some t' → c t ≤ c t' ∧
    ∀ {s F k}, R s t F → W (c t' - c t + k) s F →
      Ensures M (x s) F fun r F' => ∀ a s', r = .ok (a, s') → W k s' F'

namespace Follows

variable {R : σ → τ → Set ρ → Prop} {W : ℕ → σ → Set ρ → Prop} {c : τ → ℕ} {M : Set ρ} {t : τ}

variable {x : Impl σ ρ ε η α} {y : Plan τ η α}

theorem of_ok {a : α} {t' : τ} (hy : y t = .ok (a, t')) (hle : c t ≤ c t')
    (hret : ∀ s F r F', R s t F → Returns M (x s) F r F' → ∃ s', r = .ok (a, s') ∧ R s' t' F')
    (hens : ∀ s F k, R s t F → W (c t' - c t + k) s F →
      Ensures M (x s) F fun r F' => ∀ a s', r = .ok (a, s') → W k s' F') :
    Follows R W c M x y t where
  returns {s F r F'} hR h := by
    obtain ⟨s', rfl, hR'⟩ := hret s F r F' hR h
    exact .inr ⟨t', hy, hR'⟩
  budget {t₁} hfinal := by
    rw [hy, Plan.final_ok] at hfinal
    obtain rfl := Option.some.inj hfinal
    exact ⟨hle, hens _ _ _⟩

theorem of_fails (hy : y t = .error .fails)
    (hret : ∀ s F r F', R s t F → ¬ Returns M (x s) F r F') :
    Follows R W c M x y t where
  returns hR h := absurd h (hret _ _ _ _ hR)
  budget hfinal := by
    rw [hy] at hfinal
    cases hfinal

theorem read {f : σ → α} {g : τ → α} (h : ∀ s F, R s t F → f s = g t) :
    Follows R W c M (Impl.read f : Impl σ ρ ε η α) (Plan.read g) t := by
  refine of_ok rfl le_rfl (fun s F r F' hR hret => ?_) fun s F k _ hW =>
    ensures_pure fun a s' heq => ?_
  · obtain ⟨rfl, rfl⟩ := returns_pure.mp hret
    exact ⟨s, by rw [h s _ hR], hR⟩
  · cases heq
    simpa using hW

theorem pure (a : α) : Follows R W c M (Pure.pure a : Impl σ ρ ε η α) (Pure.pure a) t :=
  read (f := fun _ => a) (g := fun _ => a) fun _ _ _ => rfl

theorem halt (reason : η) :
    Follows R W c M (Impl.halt reason : Impl σ ρ ε η α) (Plan.halt reason) t where
  returns _ hret := by
    obtain ⟨rfl, -⟩ := returns_pure.mp hret
    exact .inr ⟨t, rfl⟩
  budget hfinal := by
    obtain rfl := Option.some.inj hfinal
    exact ⟨le_rfl, fun _ _ => ensures_pure fun _ _ heq => by cases heq⟩

theorem lift (e : Except ε α) : Follows R W c M (Impl.lift e : Impl σ ρ ε η α) (Plan.lift e) t := by
  cases e with
  | ok a => exact Follows.pure a
  | error e =>
    refine of_fails rfl fun s F r F' _ hret => ?_
    simp [Impl.lift] at hret

/-- Programs in sequence follow plans in sequence.  Of the second half it is enough to know what
follows the results that the first plan can have. -/
theorem bind {f : α → Impl σ ρ ε η β} {g : α → Plan τ η β}
    (hx : Follows R W c M x y t) (hf : ∀ a t', y t = .ok (a, t') → Follows R W c M (f a) (g a) t') :
    Follows R W c M (x >>= f) (y >>= g) t where
  returns {s F r F'} hR hret := by
    rw [Impl.bind_apply, returns_bind] at hret
    obtain ⟨r₁, F₁, hfirst, hsecond⟩ := hret
    -- a plan that says nothing of the first half says nothing of the whole
    rcases hx.returns hR hfirst with hunknown | hagrees
    · exact .inl (Plan.bind_of_error hunknown)
    cases r₁ with
    | error reason =>
      obtain ⟨rfl, rfl⟩ := returns_pure.mp hsecond
      obtain ⟨t', hy⟩ := hagrees
      exact .inr ⟨t', Plan.bind_of_error hy⟩
    | ok as =>
      obtain ⟨t', hy, hR'⟩ := hagrees
      rw [Plan.bind_of_ok hy]
      exact (hf _ _ hy).returns hR' hsecond
  budget {t₂} hfinal := by
    cases hy : y t with
    | error e =>
      -- the first half gives up, and so does the whole
      rw [Plan.bind_of_error hy] at hfinal
      have hfinal₁ : Plan.final (y t) = some t₂ := by
        rw [hy]
        cases e <;> exact hfinal
      obtain ⟨hle, hn⟩ := hx.budget hfinal₁
      refine ⟨hle, fun {s F k} hR hW => (hn hR hW).and_returns.bind ?_⟩
      rintro r F₁ ⟨-, hret⟩
      rcases hx.returns hR hret with h | h
      · rw [h] at hfinal₁
        cases hfinal₁
      · cases r with
        | error reason => exact ensures_pure fun _ _ heq => by cases heq
        | ok as =>
          obtain ⟨t', hok, -⟩ := h
          rw [hy] at hok
          cases hok
    | ok at₁ =>
      obtain ⟨a, t₁⟩ := at₁
      rw [Plan.bind_of_ok hy] at hfinal
      obtain ⟨hle₁, hn⟩ := hx.budget (by rw [hy]; rfl)
      obtain ⟨hle₂, hn'⟩ := (hf a t₁ hy).budget hfinal
      refine ⟨hle₁.trans hle₂, fun {s F k} hR hW => ?_⟩
      -- what the first half does not take is left for the second
      rw [show c t₂ - c t + k = c t₁ - c t + (c t₂ - c t₁ + k) by omega] at hW
      refine (hn hR hW).and_returns.bind ?_
      rintro r F₁ ⟨hpost, hret⟩
      rcases hx.returns hR hret with h | h
      · rw [hy] at h
        cases h
      · cases r with
        | error reason =>
          obtain ⟨t', hhalts⟩ := h
          rw [hy] at hhalts
          cases hhalts
        | ok as =>
          obtain ⟨t', hok, hR'⟩ := h
          rw [hy] at hok
          cases hok
          exact hn' hR' (hpost _ _ rfl)

theorem forM {γ : Type} {f : γ → Impl σ ρ ε η PUnit} {g : γ → Plan τ η PUnit}
    (h : ∀ d t, Follows R W c M (f d) (g d) t) (ds : List γ) :
    Follows R W c M (ds.forM f) (ds.forM g) t := by
  induction ds generalizing t with
  | nil => exact Follows.pure _
  | cons d ds ih => exact (h d t).bind fun _ _ _ => ih

end Follows

end HeliumOS.Lib
