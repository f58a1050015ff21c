import HeliumOS.Lib.Checked
import HeliumOS.Lib.Run
import Mathlib.Data.Fintype.Card
import Mathlib.Data.Set.BooleanAlgebra
import Mathlib.Logic.Function.Basic
import Mathlib.Order.CompletePartialOrder

/-!
# Programs over a Shared Pool of Resources

`AllocProg ρ ε α` is the syntax of a sequential program whose only shared effect is a pool of
resources `ρ`: it asks the pool for a resource, gives one back, fails with `ε`, or returns an
`α`.  State that the program keeps to itself is passed explicitly through its values.

`Ledger.Calls` are runs of single calls on a pool, and `Ledger.Calls.exact` says that no
resource is handed out twice along them.  Three meanings are given to a program.

* `run`: against a concrete `Pool`, from start to end.
* `Returns`: against the set of free resources, forgetting how the pool stores it.  A pool
  with a `FreeSet` abstraction refines this meaning (`run_returns`).  `Safe` says that no such
  run fails, so that a run against a live pool returns (`run_safe`).
* `Step` / `Interleaves`: one acquire or release at a time, mixed with the acquires and
  releases of other owners.  `Disciplined` programs never take a resource away from its owner
  along such a run (`Interleaves.owned`).
-/

namespace HeliumOS.Lib

/-! ## Syntax -/

/-- A program over a pool of resources `ρ` that may fail with `ε` and returns `α`. -/
inductive AllocProg (ρ ε α : Type) : Type where
  | pure (a : α)
  | fail (e : ε)
  | acquire (k : Option ρ → AllocProg ρ ε α)
  | release (r : ρ) (k : AllocProg ρ ε α)

namespace AllocProg

variable {ρ ε α β : Type}

/-- Sequencing: graft `f` onto every return of the program. -/
protected def bind : AllocProg ρ ε α → (α → AllocProg ρ ε β) → AllocProg ρ ε β
  | .pure a, f => f a
  | .fail e, _ => .fail e
  | .acquire k, f => .acquire fun r => (k r).bind f
  | .release r k, f => .release r (k.bind f)

instance : Monad (AllocProg ρ ε) where
  pure := .pure
  bind := .bind

/-- A computation without pool effects. -/
protected def lift : Except ε α → AllocProg ρ ε α
  | .ok a => .pure a
  | .error e => .fail e

instance : MonadLift (Except ε) (AllocProg ρ ε) where
  monadLift := .lift

/-- Ask the pool for one resource. -/
def get : AllocProg ρ ε (Option ρ) := .acquire .pure

/-- Give one resource back. -/
def put (r : ρ) : AllocProg ρ ε Unit := .release r (.pure ())

@[simp] theorem pure_bind' (a : α) (f : α → AllocProg ρ ε β) :
    ((Pure.pure a : AllocProg ρ ε α) >>= f) = f a := rfl

@[simp] theorem mk_pure_bind (a : α) (f : α → AllocProg ρ ε β) :
    ((.pure a : AllocProg ρ ε α) >>= f) = f a := rfl

@[simp] theorem fail_bind (e : ε) (f : α → AllocProg ρ ε β) :
    ((.fail e : AllocProg ρ ε α) >>= f) = .fail e := rfl

@[simp] theorem acquire_bind (k : Option ρ → AllocProg ρ ε α) (f : α → AllocProg ρ ε β) :
    (.acquire k >>= f) = .acquire fun r => k r >>= f := rfl

@[simp] theorem release_bind (r : ρ) (k : AllocProg ρ ε α) (f : α → AllocProg ρ ε β) :
    (.release r k >>= f) = .release r (k >>= f) := rfl

@[simp] theorem liftM_ok (a : α) :
    (liftM (Except.ok a : Except ε α) : AllocProg ρ ε α) = .pure a := rfl

@[simp] theorem liftM_error (e : ε) :
    (liftM (Except.error e : Except ε α) : AllocProg ρ ε α) = .fail e := rfl

end AllocProg

/-! ## Pools -/

/-- A concrete allocator: a state `σ` with its two operations. -/
structure Pool (σ ρ ε : Type) where
  acquire : σ → Except ε (Option ρ × σ)
  release : σ → ρ → Except ε σ

/-- The set of free resources behind a concrete allocator. -/
structure Pool.FreeSet {σ ρ ε : Type} (P : Pool σ ρ ε) where
  /-- Representation invariant of the allocator. -/
  Sound : σ → Prop
  /-- Resources that may be handed out. -/
  free : σ → Set ρ
  /-- Resources that the allocator is in charge of. -/
  managed : σ → Set ρ
  free_managed : ∀ {s}, Sound s → free s ⊆ managed s
  acquire_some : ∀ {s r s'}, Sound s → P.acquire s = .ok (some r, s') →
    r ∈ free s ∧ Sound s' ∧ free s' = free s \ {r} ∧ managed s' = managed s
  acquire_none : ∀ {s s'}, Sound s → P.acquire s = .ok (none, s') → free s = ∅ ∧ s' = s
  release_ok : ∀ {s r s'}, Sound s → P.release s r = .ok s' →
    Sound s' ∧ free s' = free s ∪ ({r} ∩ managed s) ∧ managed s' = managed s

namespace AllocProg

variable {σ ρ ε α β : Type}

/-- Run a program against a pool, from start to end. -/
def run (P : Pool σ ρ ε) : AllocProg ρ ε α → σ → Except ε (α × σ)
  | .pure a, s => .ok (a, s)
  | .fail e, _ => .error e
  | .acquire k, s => P.acquire s >>= fun rs => (k rs.1).run P rs.2
  | .release r k, s => P.release s r >>= fun s' => k.run P s'

theorem run_bind (P : Pool σ ρ ε) (x : AllocProg ρ ε α) (f : α → AllocProg ρ ε β) (s : σ) :
    (x >>= f).run P s = x.run P s >>= fun as => (f as.1).run P as.2 := by
  induction x generalizing s with
  | pure a => rfl
  | fail e => rfl
  | acquire k ih =>
    simp only [acquire_bind, run]
    cases hacq : P.acquire s with
    | error e => rfl
    | ok rs => simpa using ih rs.1 rs.2
  | release r k ih =>
    simp only [release_bind, run]
    cases hrel : P.release s r with
    | error e => rfl
    | ok s' => simpa using ih s'

theorem run_lift (P : Pool σ ρ ε) (x : Except ε α) (s : σ) :
    (liftM x : AllocProg ρ ε α).run P s = x >>= fun a => .ok (a, s) := by
  cases x <;> rfl

@[simp] theorem run_pure (P : Pool σ ρ ε) (a : α) (s : σ) :
    (Pure.pure a : AllocProg ρ ε α).run P s = .ok (a, s) := rfl

theorem run_bind_eq_ok {P : Pool σ ρ ε} {x : AllocProg ρ ε α} {f : α → AllocProg ρ ε β} {s s' : σ}
    {b : β} : (x >>= f).run P s = .ok (b, s') ↔
      ∃ a s₁, x.run P s = .ok (a, s₁) ∧ (f a).run P s₁ = .ok (b, s') := by
  rw [run_bind, except_bind_eq_ok, Prod.exists]

/-- A step without pool effects leaves the pool as it is. -/
theorem run_lift_bind_eq_ok {P : Pool σ ρ ε} {x : Except ε α} {f : α → AllocProg ρ ε β} {s s' : σ}
    {b : β} : ((liftM x : AllocProg ρ ε α) >>= f).run P s = .ok (b, s') ↔
      ∃ a, x = .ok a ∧ (f a).run P s = .ok (b, s') := by
  cases x with
  | ok a => simp only [liftM_ok, mk_pure_bind, Except.ok.injEq, exists_eq_left']
  | error e =>
    simp only [liftM_error, fail_bind, run, reduceCtorEq, false_and, exists_false]

theorem run_get (P : Pool σ ρ ε) (s : σ) :
    (get : AllocProg ρ ε (Option ρ)).run P s = P.acquire s := by
  simp only [get, run]
  cases P.acquire s <;> rfl

/-- A run that starts with a call of the pool. -/
theorem run_acquire {P : Pool σ ρ ε} {x : AllocProg ρ ε α} {k : Option ρ → AllocProg ρ ε α}
    {s s' : σ} {r : Option ρ} (hx : x = .acquire k) (h : P.acquire s = .ok (r, s')) :
    x.run P s = (k r).run P s' := by
  rw [hx, run, h, except_ok_bind]

theorem run_release {P : Pool σ ρ ε} {x k : AllocProg ρ ε α} {s s' : σ} {r : ρ}
    (hx : x = .release r k) (h : P.release s r = .ok s') : x.run P s = k.run P s' := by
  rw [hx, run, h, except_ok_bind]

/-! ## Meaning over the free set -/

/-- `Returns M p F a F'`: with the resources `F` free, `p` can return `a` and leave `F'` free.
An acquire answers with any free resource, and with none only when nothing is free; a release
makes the resource free when it belongs to the managed set `M`. -/
def Returns (M : Set ρ) : AllocProg ρ ε α → Set ρ → α → Set ρ → Prop
  | .pure a, F, b, F' => b = a ∧ F' = F
  | .fail _, _, _, _ => False
  | .acquire k, F, b, F' =>
      (∃ r ∈ F, Returns M (k (some r)) (F \ {r}) b F') ∨ (F = ∅ ∧ Returns M (k none) F b F')
  | .release r k, F, b, F' => Returns M k (F ∪ ({r} ∩ M)) b F'

variable {M F F' : Set ρ}

@[simp] theorem returns_pure {a b : α} :
    Returns M (Pure.pure a : AllocProg ρ ε α) F b F' ↔ b = a ∧ F' = F := Iff.rfl

@[simp] theorem returns_pure' {a b : α} :
    Returns M (.pure a : AllocProg ρ ε α) F b F' ↔ b = a ∧ F' = F := Iff.rfl

@[simp] theorem returns_fail {e : ε} {b : α} :
    ¬ Returns M (.fail e : AllocProg ρ ε α) F b F' := id

@[simp] theorem returns_acquire {k : Option ρ → AllocProg ρ ε α} {b : α} :
    Returns M (.acquire k) F b F' ↔
      (∃ r ∈ F, Returns M (k (some r)) (F \ {r}) b F') ∨ (F = ∅ ∧ Returns M (k none) F b F') :=
  Iff.rfl

/-- The meaning of a sequence is the composition of the meanings: there is a set of free resources
between the two parts. Proofs about programs peel them apart with this lemma. -/
theorem returns_bind {x : AllocProg ρ ε α} {f : α → AllocProg ρ ε β} {b : β} :
    Returns M (x >>= f) F b F' ↔ ∃ a F₁, Returns M x F a F₁ ∧ Returns M (f a) F₁ b F' := by
  induction x generalizing F with
  | pure a => exact ⟨fun h => ⟨a, F, ⟨rfl, rfl⟩, h⟩, by rintro ⟨_, _, ⟨rfl, rfl⟩, h⟩; exact h⟩
  | fail e => exact ⟨fun h => h.elim, by rintro ⟨_, _, h, _⟩; exact h.elim⟩
  | acquire k ih =>
    simp only [acquire_bind, Returns, ih]
    constructor
    · rintro (⟨r, hr, a, F₁, hx, hf⟩ | ⟨hF, a, F₁, hx, hf⟩)
      · exact ⟨a, F₁, .inl ⟨r, hr, hx⟩, hf⟩
      · exact ⟨a, F₁, .inr ⟨hF, hx⟩, hf⟩
    · rintro ⟨a, F₁, ⟨r, hr, hx⟩ | ⟨hF, hx⟩, hf⟩
      · exact .inl ⟨r, hr, a, F₁, hx, hf⟩
      · exact .inr ⟨hF, a, F₁, hx, hf⟩
  | release r k ih =>
    simp only [release_bind, Returns, ih]

@[simp] theorem returns_lift {x : Except ε α} {a : α} :
    Returns M (liftM x : AllocProg ρ ε α) F a F' ↔ x = .ok a ∧ F' = F := by
  cases x with
  | error e => simp
  | ok b => simp [eq_comm]

@[simp] theorem returns_get {r : Option ρ} :
    Returns M (get : AllocProg ρ ε (Option ρ)) F r F' ↔
      (∃ x ∈ F, r = some x ∧ F' = F \ {x}) ∨ (F = ∅ ∧ r = none ∧ F' = F) := Iff.rfl

@[simp] theorem returns_put {r : ρ} {u : Unit} :
    Returns M (put r : AllocProg ρ ε Unit) F u F' ↔ F' = F ∪ ({r} ∩ M) := by
  simp [put, Returns]

section Iterators

variable {τ ι : Type} {next : τ → Except ε (Option (ι × τ))} {body : ι → β → AllocProg ρ ε β}

/-- `for x in it { .. }` for the given number of turns; `none` if the iterator goes on.  What the
iterator finds may depend on the state of the loop. -/
def forEach (next : β → τ → Except ε (Option (ι × τ))) (body : ι → β → AllocProg ρ ε β) :
    ℕ → τ → β → AllocProg ρ ε (Option β)
  | 0, _, _ => return none
  | turns + 1, it, b => do
    match ← next b it with
    | none => return some b
    | some (x, it') => do
      let b ← body x b
      forEach next body turns it' b

/-- A loop over an iterator that ends is the loop over what it yields. -/
theorem returns_forEach {it : τ} {xs : List ι} (hyields : Yields next it xs) {turns : ℕ}
    (hturns : xs.length < turns) {b : β} {r : Option β} :
    Returns M (forEach (fun _ => next) body turns it b) F r F' ↔
      ∃ b', r = some b' ∧ Returns M (xs.foldlM (fun b x => body x b) b) F b' F' := by
  induction hyields generalizing turns b F with
  | done hnext =>
    obtain ⟨turns, rfl⟩ := Nat.exists_eq_add_one_of_ne_zero (Nat.ne_zero_of_lt hturns)
    simp [forEach, hnext, eq_comm]
  | more hnext _ ih =>
    obtain ⟨turns, rfl⟩ := Nat.exists_eq_add_one_of_ne_zero (Nat.ne_zero_of_lt hturns)
    have hrest := Nat.lt_of_succ_lt_succ hturns
    simp only [forEach, hnext, liftM_ok, mk_pure_bind, returns_bind, ih hrest, List.foldlM_cons]
    constructor
    · rintro ⟨b₁, F₁, hbody, b', rfl, hfold⟩
      exact ⟨b', rfl, b₁, F₁, hbody, hfold⟩
    · rintro ⟨b', rfl, b₁, F₁, hbody, hfold⟩
      exact ⟨b₁, F₁, hbody, b', rfl, hfold⟩

end Iterators

/-- A pool that refines its free set runs programs inside their free-set meaning. Statements about
programs are proved over sets of free resources, and this carries them to a run against the pool
itself. -/
theorem run_returns {P : Pool σ ρ ε} (S : P.FreeSet) {x : AllocProg ρ ε α} {s s' : σ} {a : α}
    (hs : S.Sound s) (h : x.run P s = .ok (a, s')) :
    Returns (S.managed s) x (S.free s) a (S.free s') ∧ S.Sound s' ∧
      S.managed s' = S.managed s := by
  -- induction on the program, for every state of the pool
  induction x generalizing s with
  | pure b =>
    simp only [run, Except.ok.injEq, Prod.mk.injEq] at h
    obtain ⟨rfl, rfl⟩ := h
    exact ⟨⟨rfl, rfl⟩, hs, rfl⟩
  | fail e => simp [run] at h
  | acquire k ih =>
    simp only [run, except_bind_eq_ok] at h
    obtain ⟨⟨r, s₁⟩, hacq, hk⟩ := h
    cases r with
    -- an empty pool is also one of the answers that the meaning allows
    | none =>
      obtain ⟨hempty, rfl⟩ := S.acquire_none hs hacq
      obtain ⟨hret, hsound, hman⟩ := ih none hs hk
      exact ⟨.inr ⟨hempty, hret⟩, hsound, hman⟩
    | some r =>
      obtain ⟨hr, hs₁, hfree, hman₁⟩ := S.acquire_some hs hacq
      obtain ⟨hret, hsound, hman⟩ := ih (some r) hs₁ hk
      -- the rest of the program starts from the smaller free set
      rw [hman₁, hfree] at hret
      exact ⟨.inl ⟨r, hr, hret⟩, hsound, hman.trans hman₁⟩
  | release r k ih =>
    simp only [run, except_bind_eq_ok] at h
    obtain ⟨s₁, hrel, hk⟩ := h
    obtain ⟨hs₁, hfree, hman₁⟩ := S.release_ok hs hrel
    obtain ⟨hret, hsound, hman⟩ := ih hs₁ hk
    rw [hman₁, hfree] at hret
    exact ⟨hret, hsound, hman.trans hman₁⟩

/-! ## Programs that do not fail -/

/-- With the resources `F` free, no run of the program fails, whatever the pool answers. -/
def Safe (M : Set ρ) : AllocProg ρ ε α → Set ρ → Prop
  | .pure _, _ => True
  | .fail _, _ => False
  | .acquire k, F =>
      (∀ r ∈ F, Safe M (k (some r)) (F \ {r})) ∧ (F = ∅ → Safe M (k none) F)
  | .release r k, F => Safe M k (F ∪ ({r} ∩ M))

/-- A sequence is safe when its first part is, and its second part is safe after every result that
the first can have. -/
theorem safe_bind {x : AllocProg ρ ε α} {f : α → AllocProg ρ ε β} (hx : Safe M x F)
    (hf : ∀ a F', Returns M x F a F' → Safe M (f a) F') : Safe M (x >>= f) F := by
  induction x generalizing F with
  | pure a => exact hf a F ⟨rfl, rfl⟩
  | fail e => exact hx.elim
  | acquire k ih =>
    refine ⟨fun r hr => ?_, fun hF => ?_⟩
    · exact ih (some r) (hx.1 r hr) fun a F' h => hf a F' (.inl ⟨r, hr, h⟩)
    · exact ih none (hx.2 hF) fun a F' h => hf a F' (.inr ⟨hF, h⟩)
  | release r k ih => exact ih hx fun a F' h => hf a F' h

@[simp] theorem safe_pure (a : α) : Safe M (Pure.pure a : AllocProg ρ ε α) F := trivial

@[simp] theorem safe_pure' (a : α) : Safe M (.pure a : AllocProg ρ ε α) F := trivial

@[simp] theorem not_safe_fail {e : ε} : ¬ Safe M (.fail e : AllocProg ρ ε α) F := id

theorem safe_acquire {k : Option ρ → AllocProg ρ ε α} :
    Safe M (.acquire k) F ↔
      (∀ r ∈ F, Safe M (k (some r)) (F \ {r})) ∧ (F = ∅ → Safe M (k none) F) := Iff.rfl

theorem safe_get : Safe M (get : AllocProg ρ ε (Option ρ)) F :=
  ⟨fun _ _ => trivial, fun _ => trivial⟩

theorem safe_put {r : ρ} : Safe M (put r : AllocProg ρ ε Unit) F := trivial

theorem safe_lift {x : Except ε α} {a : α} (hx : x = .ok a) :
    Safe M (liftM x : AllocProg ρ ε α) F := by
  subst hx
  trivial

theorem safe_lift_bind {x : Except ε α} {a : α} {f : α → AllocProg ρ ε β} (hx : x = .ok a)
    (h : Safe M (f a) F) : Safe M ((liftM x : AllocProg ρ ε α) >>= f) F := by
  subst hx
  exact h

/-- A program that does not fail has a result. -/
theorem Safe.returns {x : AllocProg ρ ε α} (hx : Safe M x F) : ∃ a F', Returns M x F a F' := by
  induction x generalizing F with
  | pure a => exact ⟨a, F, rfl, rfl⟩
  | fail e => exact hx.elim
  | acquire k ih =>
    rcases F.eq_empty_or_nonempty with hF | ⟨r, hr⟩
    · obtain ⟨a, F', h⟩ := ih none (hx.2 hF)
      exact ⟨a, F', .inr ⟨hF, h⟩⟩
    · obtain ⟨a, F', h⟩ := ih (some r) (hx.1 r hr)
      exact ⟨a, F', .inl ⟨r, hr, h⟩⟩
  | release r k ih => exact ih hx

/-- States of a pool in which its operations do not fail. -/
structure Live {P : Pool σ ρ ε} (S : P.FreeSet) (L : σ → Prop) : Prop where
  acquire : ∀ {s}, S.Sound s → L s → ∃ r s', P.acquire s = .ok (r, s') ∧ L s'
  release : ∀ {s} (r : ρ), S.Sound s → L s → ∃ s', P.release s r = .ok s' ∧ L s'

/-- Run against a live pool, a program that does not fail returns. Liveness of the pool is a
property of its state that every operation keeps, such as that all its addresses can be computed. -/
theorem run_safe {P : Pool σ ρ ε} {S : P.FreeSet} {L : σ → Prop} (hlive : Live S L)
    {x : AllocProg ρ ε α} {s : σ} (hs : S.Sound s) (hL : L s)
    (hx : Safe (S.managed s) x (S.free s)) : ∃ a s', x.run P s = .ok (a, s') ∧ L s' := by
  induction x generalizing s with
  | pure a => exact ⟨a, s, rfl, hL⟩
  | fail e => exact hx.elim
  | acquire k ih =>
    -- the pool answers, and the program is safe with every answer
    obtain ⟨r, s₁, hacq, hL₁⟩ := hlive.acquire hs hL
    simp only [run, hacq, except_ok_bind]
    cases r with
    | none =>
      obtain ⟨hempty, rfl⟩ := S.acquire_none hs hacq
      exact ih none hs hL₁ (hx.2 hempty)
    | some r =>
      obtain ⟨hr, hs₁, hfree, hman⟩ := S.acquire_some hs hacq
      refine ih (some r) hs₁ hL₁ ?_
      rw [hman, hfree]
      exact hx.1 r hr
  | release r k ih =>
    obtain ⟨s₁, hrel, hL₁⟩ := hlive.release r hs hL
    obtain ⟨hs₁, hfree, hman⟩ := S.release_ok hs hrel
    simp only [run, hrel, except_ok_bind]
    refine ih hs₁ hL₁ ?_
    rw [hman, hfree]
    exact hx

/-! ## Budgets -/

/-- The program asks for at most `n` resources and gives none back. -/
def AtMost : ℕ → AllocProg ρ ε α → Prop
  | _, .pure _ => True
  | _, .fail _ => True
  | 0, .acquire _ => False
  | n + 1, .acquire k => ∀ r, AtMost n (k r)
  | _, .release _ _ => False

theorem AtMost.mono {m n : ℕ} {x : AllocProg ρ ε α} (h : AtMost m x) (hmn : m ≤ n) :
    AtMost n x := by
  induction x generalizing m n with
  | pure a => simp [AtMost]
  | fail e => simp [AtMost]
  | acquire k ih =>
    cases m with
    | zero => exact h.elim
    | succ m =>
      obtain ⟨n, rfl⟩ : ∃ n', n = n' + 1 := ⟨n - 1, by omega⟩
      exact fun r => ih r (h r) (by omega)
  | release r k _ => simp [AtMost] at h

theorem AtMost.bind {m n : ℕ} {x : AllocProg ρ ε α} {f : α → AllocProg ρ ε β} (hx : AtMost m x)
    (hf : ∀ a, AtMost n (f a)) : AtMost (m + n) (x >>= f) := by
  induction x generalizing m with
  | pure a => exact (hf a).mono (by omega)
  | fail e => simp [AtMost]
  | acquire k ih =>
    cases m with
    | zero => exact hx.elim
    | succ m =>
      rw [Nat.add_right_comm]
      exact fun r => ih r (hx r)
  | release r k _ => simp [AtMost] at hx

@[simp] theorem atMost_pure (n : ℕ) (a : α) : AtMost n (Pure.pure a : AllocProg ρ ε α) := by
  simp [Pure.pure, AtMost]

@[simp] theorem atMost_fail (n : ℕ) (e : ε) : AtMost n (.fail e : AllocProg ρ ε α) := by
  simp [AtMost]

@[simp] theorem atMost_lift (n : ℕ) (x : Except ε α) :
    AtMost n (liftM x : AllocProg ρ ε α) := by
  cases x <;> simp [AtMost]

theorem AtMost.lift_bind {n : ℕ} {x : Except ε α} {f : α → AllocProg ρ ε β}
    (hf : ∀ a, x = .ok a → AtMost n (f a)) : AtMost n ((liftM x : AllocProg ρ ε α) >>= f) := by
  cases x with
  | error e => simp
  | ok a => exact hf a rfl

theorem atMost_get : AtMost 1 (get : AllocProg ρ ε (Option ρ)) := fun r => by simp [AtMost]

/-- At least `n` resources are free. -/
def HasFree (n : ℕ) (F : Set ρ) : Prop := ∃ T : Finset ρ, n ≤ T.card ∧ ↑T ⊆ F

theorem HasFree.of_injective {n : ℕ} {g : Fin n → ρ} (hinj : Function.Injective g)
    (hg : ∀ k, g k ∈ F) : HasFree n F := by
  refine ⟨Finset.univ.map ⟨g, hinj⟩, by simp, fun r hr => ?_⟩
  obtain ⟨k, -, rfl⟩ := Finset.mem_map.mp hr
  exact hg k

theorem HasFree.nonempty {n : ℕ} (h : HasFree (n + 1) F) : F ≠ ∅ := by
  rintro rfl
  obtain ⟨T, hT, hsub⟩ := h
  have hempty : T = ∅ := Finset.coe_eq_empty.mp (Set.subset_empty_iff.mp hsub)
  rw [hempty, Finset.card_empty] at hT
  omega

theorem HasFree.sdiff {n : ℕ} (h : HasFree (n + 1) F) (r : ρ) : HasFree n (F \ {r}) := by
  classical
  obtain ⟨T, hT, hsub⟩ := h
  refine ⟨T.erase r, ?_, ?_⟩
  · have := Finset.pred_card_le_card_erase (a := r) (s := T)
    omega
  · intro x hx
    rw [Finset.coe_erase] at hx
    exact ⟨hsub hx.1, hx.2⟩

theorem HasFree.mono {m n : ℕ} (h : HasFree n F) (hmn : m ≤ n) : HasFree m F := by
  obtain ⟨T, hT, hsub⟩ := h
  exact ⟨T, hmn.trans hT, hsub⟩

/-- A program within its budget leaves the rest of the pool. -/
theorem HasFree.returns {m n : ℕ} {x : AllocProg ρ ε α} {a : α} (h : HasFree (n + m) F)
    (hx : AtMost m x) (hret : Returns M x F a F') : HasFree n F' := by
  induction x generalizing F m with
  | pure b =>
    obtain ⟨-, rfl⟩ := hret
    exact h.mono (by omega)
  | fail e => exact hret.elim
  | acquire k ih =>
    cases m with
    | zero => exact hx.elim
    | succ m =>
      rcases hret with ⟨r, hr, hret⟩ | ⟨-, hret⟩
      · exact ih (some r) (h.sdiff r) (hx _) hret
      · exact ih none (h.mono (by omega)) (hx _) hret
  | release r k _ => simp [AtMost] at hx

/-- A program that gives nothing back. -/
theorem AtMost.returns_subset {n : ℕ} {x : AllocProg ρ ε α} {a : α} (hx : AtMost n x)
    (hret : Returns M x F a F') : F' ⊆ F := by
  induction x generalizing F n with
  | pure b =>
    obtain ⟨-, rfl⟩ := hret
    exact subset_rfl
  | fail e => exact hret.elim
  | acquire k ih =>
    cases n with
    | zero => exact hx.elim
    | succ n =>
      rcases hret with ⟨r, -, hret⟩ | ⟨-, hret⟩
      · exact (ih (some r) (hx _) hret).trans Set.sdiff_subset
      · exact ih none (hx _) hret
  | release r k _ => simp [AtMost] at hx

/-! ## Total correctness -/

/-- The program does not fail, and its results satisfy `Q` together with what is left free. -/
structure Ensures (M : Set ρ) (x : AllocProg ρ ε α) (F : Set ρ) (Q : α → Set ρ → Prop) : Prop where
  safe : Safe M x F
  post : ∀ a F', Returns M x F a F' → Q a F'

section Ensures

variable {Q : α → Set ρ → Prop} {R : β → Set ρ → Prop}

/-- The rule for sequences: the postcondition of the first part is the precondition of the second.
-/
theorem Ensures.bind {x : AllocProg ρ ε α} {f : α → AllocProg ρ ε β} (hx : Ensures M x F Q)
    (hf : ∀ a F', Q a F' → Ensures M (f a) F' R) : Ensures M (x >>= f) F R where
  safe := safe_bind hx.safe fun a F' h => (hf a F' (hx.post a F' h)).safe
  post b F₂ h := by
    obtain ⟨a, F', h, h'⟩ := returns_bind.mp h
    exact (hf a F' (hx.post a F' h)).post b F₂ h'

theorem Ensures.mono {x : AllocProg ρ ε α} {Q' : α → Set ρ → Prop} (hx : Ensures M x F Q)
    (h : ∀ a F', Q a F' → Q' a F') : Ensures M x F Q' :=
  ⟨hx.safe, fun a F' hret => h a F' (hx.post a F' hret)⟩

theorem Ensures.and_returns {x : AllocProg ρ ε α} (hx : Ensures M x F Q) :
    Ensures M x F fun a F' => Q a F' ∧ Returns M x F a F' :=
  ⟨hx.safe, fun a F' h => ⟨hx.post a F' h, h⟩⟩

theorem ensures_pure {a : α} (h : Q a F) : Ensures M (Pure.pure a : AllocProg ρ ε α) F Q where
  safe := safe_pure a
  post b F' hret := by
    obtain ⟨rfl, rfl⟩ := returns_pure.mp hret
    exact h

theorem ensures_lift {x : Except ε α} {a : α} (hx : x = .ok a) (h : Q a F) :
    Ensures M (liftM x : AllocProg ρ ε α) F Q where
  safe := safe_lift hx
  post b F' hret := by
    obtain ⟨hb, rfl⟩ := returns_lift.mp hret
    obtain rfl : a = b := Except.ok.inj (hx.symm.trans hb)
    exact h

/-- A step without pool effects that goes through. -/
theorem ensures_lift_bind {x : Except ε α} {a : α} {f : α → AllocProg ρ ε β}
    {Q : β → Set ρ → Prop} (hx : x = .ok a) (h : Ensures M (f a) F Q) :
    Ensures M ((liftM x : AllocProg ρ ε α) >>= f) F Q := by
  subst hx
  exact h

/-- A resource is handed out as long as there is one. -/
theorem ensures_get {n : ℕ} {Q : Option ρ → Set ρ → Prop} (hfree : HasFree (n + 1) F)
    (h : ∀ r ∈ F, Q (some r) (F \ {r})) : Ensures M (get : AllocProg ρ ε (Option ρ)) F Q where
  safe := safe_get
  post r F' hret := by
    rcases returns_get.mp hret with ⟨r, hr, rfl, rfl⟩ | ⟨hempty, -, -⟩
    · exact h r hr
    · exact absurd hempty hfree.nonempty

/-- Against a live pool the program returns with its postcondition. -/
theorem Ensures.run {P : Pool σ ρ ε} {S : P.FreeSet} {L : σ → Prop} (hlive : Live S L)
    {x : AllocProg ρ ε α} {s : σ} (hs : S.Sound s) (hL : L s)
    (hx : Ensures (S.managed s) x (S.free s) Q) :
    ∃ a s', x.run P s = .ok (a, s') ∧ S.Sound s' ∧ L s' ∧ Q a (S.free s') := by
  obtain ⟨a, s', hrun, hL'⟩ := run_safe hlive hs hL hx.safe
  obtain ⟨hret, hs', -⟩ := run_returns S hs hrun
  exact ⟨a, s', hrun, hs', hL', hx.post a _ hret⟩

end Ensures

/-! ## Discipline -/

/-- The resources a program gives back before its next acquire. -/
def pending : AllocProg ρ ε α → List ρ
  | .release r k => r :: pending k
  | _ => []

/-- `Disciplined Q p mine gone`: holding `mine`, the program gives back only resources that it
holds, or that it has given back since its last acquire (`gone`).  Its results satisfy `Q` together
with what it holds and has given back by then. -/
def Disciplined (Q : α → Set ρ → Set ρ → Prop) : AllocProg ρ ε α → Set ρ → Set ρ → Prop
  | .pure a, mine, gone => Q a mine gone
  | .fail _, _, _ => True
  | .acquire k, mine, _ =>
      (∀ r, r ∉ mine → Disciplined Q (k (some r)) (insert r mine) ∅) ∧ Disciplined Q (k none) mine ∅
  | .release r k, mine, gone =>
      (r ∈ mine ∧ Disciplined Q k (mine \ {r}) (insert r gone)) ∨
        (r ∈ gone ∧ r ∉ mine ∧ Disciplined Q k mine gone)

section Disciplined

variable {Q : α → Set ρ → Set ρ → Prop} {R : β → Set ρ → Set ρ → Prop} {mine gone : Set ρ}

/-- What a disciplined program gives back next is its own, or is back already. -/
theorem Disciplined.pending_subset {p : AllocProg ρ ε α} (h : Disciplined Q p mine gone) :
    ∀ r ∈ p.pending, r ∈ mine ∨ r ∈ gone := by
  induction p generalizing mine gone with
  | pure a => simp [pending]
  | fail e => simp [pending]
  | acquire k _ => simp [pending]
  | release r k ih =>
    intro x hx
    simp only [pending, List.mem_cons] at hx
    -- the program gives back its own resource, or one that it has given back before
    rcases h with ⟨hr, hk⟩ | ⟨hr, _, hk⟩
    · rcases hx with rfl | hx
      · exact .inl hr
      · rcases ih hk x hx with hmine | hgone
        · exact .inl hmine.1
        · rcases hgone with rfl | hgone
          · exact .inl hr
          · exact .inr hgone
    · rcases hx with rfl | hx
      · exact .inr hr
      · exact ih hk x hx

theorem Disciplined.bind {x : AllocProg ρ ε α} {f : α → AllocProg ρ ε β}
    (hx : Disciplined Q x mine gone)
    (hf : ∀ a mine' gone', Q a mine' gone' → Disciplined R (f a) mine' gone') :
    Disciplined R (x >>= f) mine gone := by
  induction x generalizing mine gone with
  | pure a => exact hf a mine gone hx
  | fail e => trivial
  | acquire k ih => exact ⟨fun r hr => ih (some r) (hx.1 r hr), ih none hx.2⟩
  | release r k ih => exact hx.imp (fun h => ⟨h.1, ih h.2⟩) fun h => ⟨h.1, h.2.1, ih h.2.2⟩

theorem Disciplined.mono {Q' : α → Set ρ → Set ρ → Prop} {x : AllocProg ρ ε α}
    (hx : Disciplined Q x mine gone) (h : ∀ a mine' gone', Q a mine' gone' → Q' a mine' gone') :
    Disciplined Q' x mine gone := by
  induction x generalizing mine gone with
  | pure a => exact h a mine gone hx
  | fail e => trivial
  | acquire k ih => exact ⟨fun r hr => ih (some r) (hx.1 r hr), ih none hx.2⟩
  | release r k ih => exact hx.imp (fun h => ⟨h.1, ih h.2⟩) fun h => ⟨h.1, h.2.1, ih h.2.2⟩

theorem disciplined_pure {a : α} (h : Q a mine gone) :
    Disciplined Q (Pure.pure a : AllocProg ρ ε α) mine gone := h

theorem disciplined_fail (e : ε) : Disciplined Q (.fail e : AllocProg ρ ε α) mine gone := trivial

theorem disciplined_lift {x : Except ε α} (h : ∀ a, x = .ok a → Q a mine gone) :
    Disciplined Q (liftM x : AllocProg ρ ε α) mine gone := by
  cases x with
  | error e => trivial
  | ok a => exact h a rfl

theorem disciplined_get {Q : Option ρ → Set ρ → Set ρ → Prop}
    (hsome : ∀ r, r ∉ mine → Q (some r) (insert r mine) ∅) (hnone : Q none mine ∅) :
    Disciplined Q (get : AllocProg ρ ε (Option ρ)) mine gone :=
  ⟨hsome, hnone⟩

/-- Giving back what is held, or was given back since the last acquire. -/
theorem disciplined_put {r : ρ} (hr : r ∈ mine ∪ gone) :
    Disciplined (fun _ mine' gone' => mine' ∪ gone' = mine ∪ gone)
      (put r : AllocProg ρ ε Unit) mine gone := by
  by_cases hmine : r ∈ mine
  · refine .inl ⟨hmine, ?_⟩
    change mine \ {r} ∪ insert r gone = mine ∪ gone
    rw [Set.union_insert, ← Set.insert_union, Set.insert_sdiff_singleton,
      Set.insert_eq_of_mem hmine]
  · exact .inr ⟨hr.resolve_left hmine, hmine, rfl⟩

/-- A program within a budget only takes. -/
theorem AtMost.disciplined {n : ℕ} {x : AllocProg ρ ε α} (h : AtMost n x) :
    Disciplined (fun _ mine' gone' => mine ⊆ mine' ∧ gone' = ∅) x mine ∅ := by
  induction x generalizing n mine with
  | pure a => exact ⟨subset_rfl, rfl⟩
  | fail e => trivial
  | acquire k ih =>
    cases n with
    | zero => exact h.elim
    | succ n =>
      refine ⟨fun r _ => (ih (some r) (h _)).mono ?_, ih none (h _)⟩
      exact fun _ _ _ hpost => ⟨(Set.subset_insert _ _).trans hpost.1, hpost.2⟩
  | release r k _ => simp [AtMost] at h

end Disciplined

end AllocProg

/-! ## Runs of single calls -/

/-- A pool together with the resources that it handed out and did not get back. -/
structure Ledger (σ ρ : Type) where
  pool : σ
  handed : List ρ

namespace Ledger

variable {σ ρ ε : Type}

/-- One call on the pool.  Only resources that are handed out are given back. -/
inductive Call [DecidableEq ρ] (P : Pool σ ρ ε) : Ledger σ ρ → Ledger σ ρ → Prop where
  | acquire {s s' : σ} {handed : List ρ} {r : ρ} :
      P.acquire s = .ok (some r, s') → Call P ⟨s, handed⟩ ⟨s', r :: handed⟩
  | refused {s s' : σ} {handed : List ρ} :
      P.acquire s = .ok (none, s') → Call P ⟨s, handed⟩ ⟨s', handed⟩
  | release {s s' : σ} {handed : List ρ} {r : ρ} :
      r ∈ handed → P.release s r = .ok s' → Call P ⟨s, handed⟩ ⟨s', handed.erase r⟩

/-- A finite sequence of calls. -/
inductive Calls [DecidableEq ρ] (P : Pool σ ρ ε) : Ledger σ ρ → Ledger σ ρ → Prop where
  | refl (l : Ledger σ ρ) : Calls P l l
  | tail {l l' l'' : Ledger σ ρ} : Calls P l l' → Call P l' l'' → Calls P l l''

/-- What is handed out is managed by the pool, not free, and handed out once. -/
structure Exact {P : Pool σ ρ ε} (S : P.FreeSet) (M : Set ρ) (l : Ledger σ ρ) : Prop where
  sound : S.Sound l.pool
  managed : S.managed l.pool = M
  nodup : l.handed.Nodup
  taken : ∀ r ∈ l.handed, r ∈ M ∧ r ∉ S.free l.pool

variable [DecidableEq ρ] {P : Pool σ ρ ε} {S : P.FreeSet} {M : Set ρ} {l l' : Ledger σ ρ}

/-- One call keeps the account: what is handed out was free, and what comes back is taken off the
list once. -/
theorem Call.exact (hcall : Call P l l') (h : l.Exact S M) : l'.Exact S M := by
  cases hcall with
  -- what is handed out was free, so that no caller has it yet
  | acquire hacq =>
    obtain ⟨hr, hsound, hfree, hman⟩ := S.acquire_some h.sound hacq
    refine ⟨hsound, hman.trans h.managed, ?_, ?_⟩
    · exact List.nodup_cons.mpr ⟨fun hmem => (h.taken _ hmem).2 hr, h.nodup⟩
    · intro x hx
      rw [hfree]
      rcases List.mem_cons.mp hx with rfl | hx
      · exact ⟨h.managed ▸ S.free_managed h.sound hr, fun hf => hf.2 rfl⟩
      · exact ⟨(h.taken x hx).1, fun hf => (h.taken x hx).2 hf.1⟩
  | refused hacq =>
    obtain ⟨-, rfl⟩ := S.acquire_none h.sound hacq
    exact h
  | release hmem hrel =>
    obtain ⟨hsound, hfree, hman⟩ := S.release_ok h.sound hrel
    refine ⟨hsound, hman.trans h.managed, h.nodup.erase _, ?_⟩
    intro x hx
    obtain ⟨hne, hx⟩ := h.nodup.mem_erase_iff.mp hx
    rw [hfree]
    exact ⟨(h.taken x hx).1, by rintro (hf | hf); exacts [(h.taken x hx).2 hf, hne hf.1]⟩

/-- **No resource is handed out twice** along a run of calls, as long as callers only give back what
they got. -/
theorem Calls.exact (hrun : Calls P l l') (h : l.Exact S M) : l'.Exact S M := by
  induction hrun with
  | refl => exact h
  | tail _ hcall ih => exact hcall.exact ih

end Ledger

/-! ## Interleaving with other owners -/

/-- One program running against a pool that other owners `κ` use too.  `mine` and `theirs`
record who obtained which resource and has not given it back. -/
structure Config (σ ρ ε α κ : Type) where
  pool : σ
  prog : AllocProg ρ ε α
  mine : Set ρ
  theirs : κ → Set ρ

section Interleaving

variable {σ ρ ε α κ : Type}

/-- One atomic step.  Other owners give back only what they hold; they acquire only in
configurations that satisfy `C`. -/
inductive Step [DecidableEq κ] (P : Pool σ ρ ε) (C : Config σ ρ ε α κ → Prop) :
    Config σ ρ ε α κ → Config σ ρ ε α κ → Prop where
  | take {c : Config σ ρ ε α κ} {k : Option ρ → AllocProg ρ ε α} {r : ρ} {s : σ} :
      c.prog = .acquire k → P.acquire c.pool = .ok (some r, s) →
      Step P C c ⟨s, k (some r), insert r c.mine, c.theirs⟩
  | refused {c : Config σ ρ ε α κ} {k : Option ρ → AllocProg ρ ε α} {s : σ} :
      c.prog = .acquire k → P.acquire c.pool = .ok (none, s) →
      Step P C c ⟨s, k none, c.mine, c.theirs⟩
  | give {c : Config σ ρ ε α κ} {k : AllocProg ρ ε α} {r : ρ} {s : σ} :
      c.prog = .release r k → P.release c.pool r = .ok s →
      Step P C c ⟨s, k, c.mine \ {r}, c.theirs⟩
  | otherTake {c : Config σ ρ ε α κ} (o : κ) {r : ρ} {s : σ} :
      C c → P.acquire c.pool = .ok (some r, s) →
      Step P C c ⟨s, c.prog, c.mine, Function.update c.theirs o (insert r (c.theirs o))⟩
  | otherRefused {c : Config σ ρ ε α κ} {s : σ} :
      C c → P.acquire c.pool = .ok (none, s) →
      Step P C c ⟨s, c.prog, c.mine, c.theirs⟩
  | otherGive {c : Config σ ρ ε α κ} (o : κ) {r : ρ} {s : σ} :
      r ∈ c.theirs o → P.release c.pool r = .ok s →
      Step P C c ⟨s, c.prog, c.mine, Function.update c.theirs o (c.theirs o \ {r})⟩

/-- A run of atomic steps. -/
inductive Interleaves [DecidableEq κ] (P : Pool σ ρ ε) (C : Config σ ρ ε α κ → Prop) :
    Config σ ρ ε α κ → Config σ ρ ε α κ → Prop where
  | refl (c : Config σ ρ ε α κ) : Interleaves P C c c
  | tail {c c' c'' : Config σ ρ ε α κ} :
      Interleaves P C c c' → Step P C c' c'' → Interleaves P C c c''

/-- Whatever the program is about to give back, it still holds. -/
def Config.NoReRelease (c : Config σ ρ ε α κ) : Prop := ∀ r ∈ c.prog.pending, r ∈ c.mine

/-- Every resource that somebody holds is managed and not free, and has one holder; the
program can only give back a resource again that nobody else has obtained. -/
structure Config.Owned {P : Pool σ ρ ε} (S : P.FreeSet) (c : Config σ ρ ε α κ) : Prop where
  sound : S.Sound c.pool
  mine_taken : ∀ r ∈ c.mine, r ∈ S.managed c.pool ∧ r ∉ S.free c.pool
  theirs_taken : ∀ o, ∀ r ∈ c.theirs o, r ∈ S.managed c.pool ∧ r ∉ S.free c.pool
  apart : ∀ o, ∀ r ∈ c.theirs o, r ∉ c.mine
  apart' : ∀ o o', ∀ r ∈ c.theirs o, r ∈ c.theirs o' → o = o'
  disciplined : ∃ gone, AllocProg.Disciplined (fun _ _ _ => True) c.prog c.mine gone
  again : ∀ r ∈ c.prog.pending, r ∈ c.mine ∨ ∀ o, r ∉ c.theirs o

variable {P : Pool σ ρ ε} {S : P.FreeSet}

private theorem owned_take {c : Config σ ρ ε α κ} {k : Option ρ → AllocProg ρ ε α} {r : ρ}
    {s : σ} (h : c.Owned S) (hprog : c.prog = .acquire k)
    (hacq : P.acquire c.pool = .ok (some r, s)) :
    Config.Owned S ⟨s, k (some r), insert r c.mine, c.theirs⟩ := by
  obtain ⟨hr, hsound, hfree, hman⟩ := S.acquire_some h.sound hacq
  -- a free resource is nobody's
  have hmine : r ∉ c.mine := fun hm => (h.mine_taken r hm).2 hr
  obtain ⟨gone, hdisc⟩ := h.disciplined
  rw [hprog] at hdisc
  have hdisc' := hdisc.1 r hmine
  refine ⟨hsound, ?_, ?_, ?_, h.apart', ⟨∅, hdisc'⟩, ?_⟩
  · intro x hx
    rw [hfree, hman]
    rcases hx with rfl | hx
    · exact ⟨S.free_managed h.sound hr, fun hx => hx.2 rfl⟩
    · exact ⟨(h.mine_taken x hx).1, fun hf => (h.mine_taken x hx).2 hf.1⟩
  · intro o x hx
    rw [hfree, hman]
    exact ⟨(h.theirs_taken o x hx).1, fun hf => (h.theirs_taken o x hx).2 hf.1⟩
  · rintro o x hx (rfl | hm)
    · exact (h.theirs_taken o x hx).2 hr
    · exact h.apart o x hx hm
  · intro x hx
    rcases hdisc'.pending_subset x hx with hm | hm
    · exact .inl hm
    · exact hm.elim

private theorem owned_refused {c : Config σ ρ ε α κ} {k : Option ρ → AllocProg ρ ε α} {s : σ}
    (h : c.Owned S) (hprog : c.prog = .acquire k) (hacq : P.acquire c.pool = .ok (none, s)) :
    Config.Owned S ⟨s, k none, c.mine, c.theirs⟩ := by
  obtain ⟨-, rfl⟩ := S.acquire_none h.sound hacq
  obtain ⟨gone, hdisc⟩ := h.disciplined
  rw [hprog] at hdisc
  refine ⟨h.sound, h.mine_taken, h.theirs_taken, h.apart, h.apart', ⟨∅, hdisc.2⟩, ?_⟩
  intro x hx
  rcases hdisc.2.pending_subset x hx with hm | hm
  · exact .inl hm
  · exact hm.elim

/-- What is taken remains so when something else is given back. -/
private theorem taken_of_release {s s' : σ} {r x : ρ} (hsound : S.Sound s)
    (hrel : P.release s r = .ok s') (hne : x ≠ r) (hx : x ∈ S.managed s ∧ x ∉ S.free s) :
    x ∈ S.managed s' ∧ x ∉ S.free s' := by
  obtain ⟨-, hfree, hman⟩ := S.release_ok hsound hrel
  rw [hman, hfree]
  refine ⟨hx.1, ?_⟩
  rintro (hf | hf)
  · exact hx.2 hf
  · exact hne hf.1

private theorem owned_give {c : Config σ ρ ε α κ} {k : AllocProg ρ ε α} {r : ρ} {s : σ}
    (h : c.Owned S) (hprog : c.prog = .release r k) (hrel : P.release c.pool r = .ok s) :
    Config.Owned S ⟨s, k, c.mine \ {r}, c.theirs⟩ := by
  obtain ⟨hsound, -, -⟩ := S.release_ok h.sound hrel
  -- nobody else holds `r`: it is either ours or was given back and not obtained since
  have hothers : ∀ o, r ∉ c.theirs o := by
    rcases h.again r (by simp [hprog, AllocProg.pending]) with hm | ho
    · exact fun o ho => h.apart o r ho hm
    · exact ho
  obtain ⟨gone, hdisc⟩ := h.disciplined
  rw [hprog] at hdisc
  refine ⟨hsound, fun x hx => taken_of_release h.sound hrel hx.2 (h.mine_taken x hx.1), ?_,
    fun o x hx hm => h.apart o x hx hm.1, h.apart', ?_, ?_⟩
  · intro o x hx
    exact taken_of_release h.sound hrel (by rintro rfl; exact hothers o hx) (h.theirs_taken o x hx)
  · rcases hdisc with ⟨_, hk⟩ | ⟨_, hnot, hk⟩
    · exact ⟨_, hk⟩
    · have hsame : c.mine \ {r} = c.mine := by
        ext x
        constructor
        · exact fun hx => hx.1
        · exact fun hx => ⟨hx, by rintro rfl; exact hnot hx⟩
      exact ⟨gone, hsame.symm ▸ hk⟩
  · intro x hx
    by_cases hxr : x = r
    · exact .inr (hxr ▸ hothers)
    · rcases h.again x (by simp [hprog, AllocProg.pending, hx]) with hm | ho
      · exact .inl ⟨hm, hxr⟩
      · exact .inr ho

private theorem owned_otherTake [DecidableEq κ] {c : Config σ ρ ε α κ} {o : κ} {r : ρ} {s : σ}
    (h : c.Owned S) (hno : c.NoReRelease) (hacq : P.acquire c.pool = .ok (some r, s)) :
    Config.Owned S
      ⟨s, c.prog, c.mine, Function.update c.theirs o (insert r (c.theirs o))⟩ := by
  obtain ⟨hr, hsound, hfree, hman⟩ := S.acquire_some h.sound hacq
  -- what the others have: the new resource, or what they had before
  have hnew : ∀ o' x, x ∈ Function.update c.theirs o (insert r (c.theirs o)) o' →
      (o' = o ∧ x = r) ∨ x ∈ c.theirs o' := by
    intro o' x hx
    by_cases ho : o' = o
    · subst ho
      rw [Function.update_self] at hx
      exact hx.imp (fun e => ⟨rfl, e⟩) id
    · rw [Function.update_of_ne ho] at hx
      exact .inr hx
  refine ⟨hsound, ?_, ?_, ?_, ?_, h.disciplined, fun x hx => .inl (hno x hx)⟩
  · intro x hx
    rw [hfree, hman]
    exact ⟨(h.mine_taken x hx).1, fun hf => (h.mine_taken x hx).2 hf.1⟩
  · intro o' x hx
    rw [hfree, hman]
    rcases hnew o' x hx with ⟨-, rfl⟩ | hx
    · exact ⟨S.free_managed h.sound hr, fun hf => hf.2 rfl⟩
    · exact ⟨(h.theirs_taken o' x hx).1, fun hf => (h.theirs_taken o' x hx).2 hf.1⟩
  · intro o' x hx hm
    rcases hnew o' x hx with ⟨-, rfl⟩ | hx
    · exact (h.mine_taken x hm).2 hr
    · exact h.apart o' x hx hm
  · intro o₁ o₂ x h₁ h₂
    rcases hnew o₁ x h₁ with ⟨e₁, hx₁⟩ | hx₁
    · rcases hnew o₂ x h₂ with ⟨e₂, -⟩ | hx₂
      · rw [e₁, e₂]
      · exact ((h.theirs_taken o₂ x hx₂).2 (hx₁ ▸ hr)).elim
    · rcases hnew o₂ x h₂ with ⟨-, hx₂⟩ | hx₂
      · exact ((h.theirs_taken o₁ x hx₁).2 (hx₂ ▸ hr)).elim
      · exact h.apart' o₁ o₂ x hx₁ hx₂

private theorem owned_otherGive [DecidableEq κ] {c : Config σ ρ ε α κ} {o : κ} {r : ρ} {s : σ}
    (h : c.Owned S) (hr : r ∈ c.theirs o) (hrel : P.release c.pool r = .ok s) :
    Config.Owned S ⟨s, c.prog, c.mine, Function.update c.theirs o (c.theirs o \ {r})⟩ := by
  obtain ⟨hsound, -, -⟩ := S.release_ok h.sound hrel
  -- no one else has the resource that is given back
  have hold : ∀ o' x, x ∈ Function.update c.theirs o (c.theirs o \ {r}) o' →
      x ∈ c.theirs o' ∧ x ≠ r := by
    intro o' x hx
    by_cases ho : o' = o
    · subst ho
      rw [Function.update_self] at hx
      exact hx
    · rw [Function.update_of_ne ho] at hx
      exact ⟨hx, by rintro rfl; exact ho (h.apart' o' o x hx hr)⟩
  refine ⟨hsound, ?_, ?_, ?_, ?_, h.disciplined, ?_⟩
  · intro x hx
    exact taken_of_release h.sound hrel (by rintro rfl; exact h.apart o x hr hx) (h.mine_taken x hx)
  · intro o' x hx
    exact taken_of_release h.sound hrel (hold o' x hx).2 (h.theirs_taken o' x (hold o' x hx).1)
  · exact fun o' x hx => h.apart o' x (hold o' x hx).1
  · exact fun o₁ o₂ x h₁ h₂ => h.apart' o₁ o₂ x (hold o₁ x h₁).1 (hold o₂ x h₂).1
  · intro x hx
    exact (h.again x hx).imp id fun ho o' hx' => ho o' (hold o' x hx').1

/-- One step keeps ownership, when other owners acquire only while the program is not about to
give a resource back a second time. -/
theorem Step.owned [DecidableEq κ] {c c' : Config σ ρ ε α κ}
    (hstep : Step P Config.NoReRelease c c') (h : c.Owned S) : c'.Owned S := by
  cases hstep with
  | take hprog hacq => exact owned_take h hprog hacq
  | refused hprog hacq => exact owned_refused h hprog hacq
  | give hprog hrel => exact owned_give h hprog hrel
  | otherTake o hno hacq => exact owned_otherTake h hno hacq
  | otherRefused hno hacq =>
    obtain ⟨-, rfl⟩ := S.acquire_none h.sound hacq
    exact h
  | otherGive o hr hrel => exact owned_otherGive h hr hrel

/-- Ownership along a whole run. Other owners acquire and release resources between the steps of the
program, but acquire none while it is about to release one that it does not hold any more. -/
theorem Interleaves.owned [DecidableEq κ] {c c' : Config σ ρ ε α κ}
    (hrun : Interleaves P Config.NoReRelease c c') (h : c.Owned S) : c'.Owned S := by
  induction hrun with
  | refl => exact h
  | tail _ hstep ih => exact hstep.owned ih

end Interleaving

-- Programs are reasoned about through the lemmas above; on closed terms unfolding would run them.
attribute [irreducible] AllocProg.Returns AllocProg.Safe AllocProg.Disciplined

end HeliumOS.Lib
