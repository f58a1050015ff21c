import HeliumOS.Lib.Run
import HeliumOS.Lib.RwLock
import Mathlib.Algebra.BigOperators.Group.Finset.Basic
import Mathlib.Data.Set.Insert

/-!
# Threads that Start Up Together

Threads that run straight-line code and meet in cells, which are set once and stay set, and in
locks.  A thread sets a cell, spins until one is set, uses what a cell stands for, which fails if
the cell is not set, or takes and gives back a lock.

- `Disciplined` is a check of the code of one thread.  Each cell publishes other cells: whoever sets
  it knows that these are set, and whoever has waited for it may rely on them.
- `Sound.run`: if the code of every thread passes, no thread ever fails, and a thread that is at its
  end finds set what its code knows.
- `LockOrder` and `AwaitOrder` are checks against waiting in a circle.
- `Live.progress` and `Sound.length_add_left`: then some thread can go on until all are at their
  end, and every run gets there.
-/

namespace HeliumOS.Lib.Startup

variable {ι κ l : Type*}

/-! ## Threads -/

/-- What a thread does next. -/
inductive Action (κ l : Type*) where
  /-- The cell is set, and stays set. -/
  | set (k : κ)
  /-- Spin until the cell is set. -/
  | await (k : κ)
  /-- Go on if the cell is set, and fail if it is not. -/
  | use (k : κ)
  | lock (r : l) (m : LockMode)
  | unlock (r : l)

/-- What a thread has left to do. -/
abbrev Code (κ l : Type*) := List (Action κ l)

/-- The guards a thread holds, the last one first. -/
abbrev Guards (l : Type*) := List (l × LockMode)

/-- All threads, the cells that are set, and the threads that have failed. -/
structure State (ι κ l : Type*) where
  rest : ι → Code κ l
  cells : Set κ
  guards : ι → Guards l
  failed : Set ι

/-- All threads are about to start. -/
def State.start (code : ι → Code κ l) : State ι κ l := ⟨code, ∅, fun _ => [], ∅⟩

/-- A thread holds a lock. -/
def State.Holds (s : State ι κ l) (r : l) (i : ι) (m : LockMode) : Prop := (r, m) ∈ s.guards i

namespace Action

/-- The cells that are set by an action. -/
def sets : Action κ l → Set κ
  | .set k => {k}
  | _ => ∅

/-- The guards of the thread after an action. -/
def guards [DecidableEq l] : Action κ l → Guards l → Guards l
  | .lock r m, gs => (r, m) :: gs
  | .unlock r, gs => gs.filter fun g => g.1 ≠ r
  | _, gs => gs

/-- The thread need not wait, and does not fail. -/
def Ready (s : State ι κ l) : Action κ l → Prop
  | .await k | .use k => k ∈ s.cells
  | .lock r m => Grants (s.Holds r) m
  | .set _ | .unlock _ => True

end Action

/-- One action of one thread.  A thread that fails does nothing more, and keeps its guards. -/
inductive Step [DecidableEq ι] [DecidableEq l] : State ι κ l → ι → State ι κ l → Prop where
  | go {s : State ι κ l} {i : ι} {a : Action κ l} {as : Code κ l} (hrest : s.rest i = a :: as)
      (hready : a.Ready s) :
      Step s i ⟨Function.update s.rest i as, s.cells ∪ a.sets,
        Function.update s.guards i (a.guards (s.guards i)), s.failed⟩
  | fail {s : State ι κ l} {i : ι} {k : κ} {as : Code κ l} (hrest : s.rest i = .use k :: as)
      (hunset : k ∉ s.cells) :
      Step s i ⟨Function.update s.rest i [], s.cells, s.guards, insert i s.failed⟩

/-! ## What a thread may rely on -/

section Discipline

variable (publishes : κ → Set κ)

/-- The cells that are known to be set at the end of the code, from those known at its start. -/
def knows : Set κ → Code κ l → Set κ
  | known, [] => known
  | known, .set k :: as => knows (insert k known) as
  | known, .await k :: as => knows (insert k (publishes k ∪ known)) as
  | known, .use _ :: as | known, .lock _ _ :: as | known, .unlock _ :: as => knows known as

/-- The code uses only what it knows, and sets a cell only when it knows all that the cell
publishes. -/
def Disciplined : Set κ → Code κ l → Prop
  | _, [] => True
  | known, .set k :: as => publishes k ⊆ known ∧ Disciplined (insert k known) as
  | known, .await k :: as => Disciplined (insert k (publishes k ∪ known)) as
  | known, .use k :: as => k ∈ known ∧ Disciplined known as
  | known, .lock _ _ :: as | known, .unlock _ :: as => Disciplined known as

variable {publishes} {K K' : Set κ} {as bs : Code κ l}

section Equations

variable {k : κ} {r : l} {m : LockMode}

@[simp] theorem knows_nil : knows publishes K ([] : Code κ l) = K := rfl

@[simp] theorem knows_set : knows publishes K (.set k :: as) = knows publishes
    (insert k K) as := rfl

@[simp] theorem knows_await :
    knows publishes K (.await k :: as) = knows publishes (insert k (publishes k ∪ K)) as := rfl

@[simp] theorem knows_use : knows publishes K (.use k :: as) = knows publishes K as := rfl

@[simp] theorem knows_lock : knows publishes K (.lock r m :: as) = knows publishes K as := rfl

@[simp] theorem knows_unlock : knows publishes K (.unlock r :: as) = knows publishes K as := rfl

@[simp] theorem disciplined_nil : Disciplined publishes K ([] : Code κ l) := trivial

@[simp] theorem disciplined_set : Disciplined publishes K (.set k :: as) ↔
    publishes k ⊆ K ∧ Disciplined publishes (insert k K) as := Iff.rfl

@[simp] theorem disciplined_await : Disciplined publishes K (.await k :: as) ↔
    Disciplined publishes (insert k (publishes k ∪ K)) as := Iff.rfl

@[simp] theorem disciplined_use :
    Disciplined publishes K (.use k :: as) ↔ k ∈ K ∧ Disciplined publishes K as := Iff.rfl

@[simp] theorem disciplined_lock :
    Disciplined publishes K (.lock r m :: as) ↔ Disciplined publishes K as := Iff.rfl

@[simp] theorem disciplined_unlock :
    Disciplined publishes K (.unlock r :: as) ↔ Disciplined publishes K as := Iff.rfl

end Equations

@[simp] theorem knows_append :
    knows publishes K (as ++ bs) = knows publishes (knows publishes K as) bs := by
  induction as generalizing K with
  | nil => rfl
  | cons a as ih => cases a <;> exact ih

theorem disciplined_append : Disciplined publishes K (as ++ bs) ↔
    Disciplined publishes K as ∧ Disciplined publishes (knows publishes K as) bs := by
  induction as generalizing K with
  | nil => exact (and_iff_right trivial).symm
  | cons a as ih =>
    cases a with
    | set k => exact (and_congr_right' ih).trans and_assoc.symm
    | use k => exact (and_congr_right' ih).trans and_assoc.symm
    | await k | lock r m | unlock r => exact ih

theorem subset_knows : K ⊆ knows publishes K as := by
  induction as generalizing K with
  | nil => exact subset_rfl
  | cons a as ih =>
    cases a with
    | set k => exact (Set.subset_insert k K).trans ih
    | await k => exact (Set.subset_union_right.trans (Set.subset_insert k _)).trans ih
    | use k | lock r m | unlock r => exact ih

theorem mem_knows_of_set {k : κ} (h : .set k ∈ as) : k ∈ knows publishes K as := by
  induction as generalizing K with
  | nil => cases h
  | cons a as ih =>
    rcases List.mem_cons.mp h with rfl | hmem
    · exact (subset_knows : insert k K ⊆ knows publishes (insert k K) as) (Set.mem_insert k K)
    · cases a <;> exact ih hmem

/-- Code that passes the check passes it with more knowledge. -/
theorem Disciplined.mono (h : Disciplined publishes K as) (hK : K ⊆ K') :
    Disciplined publishes K' as := by
  induction as generalizing K K' with
  | nil => trivial
  | cons a as ih =>
    cases a with
    | set k => exact ⟨h.1.trans hK, ih h.2 (Set.insert_subset_insert hK)⟩
    | await k => exact ih h (Set.insert_subset_insert (Set.union_subset_union_right _ hK))
    | use k => exact ⟨hK h.1, ih h.2 hK⟩
    | lock r m | unlock r => exact ih h hK

/-- At the end of the code what its cells publish is known. -/
theorem Disciplined.publishes_subset {k : κ} (h : Disciplined publishes K as) (hk : .set k ∈ as) :
    publishes k ⊆ knows publishes K as := by
  induction as generalizing K with
  | nil => cases hk
  | cons a as ih =>
    rcases List.mem_cons.mp hk with rfl | hmem
    · exact (h.1.trans (Set.subset_insert k K)).trans subset_knows
    · cases a with
      | set k' | use k' => exact ih h.2 hmem
      | await k' | lock r m | unlock r => exact ih h hmem

/-- Two pieces of code, the second one with what the first one leaves behind. -/
theorem Disciplined.append (h : Disciplined publishes K as) (h' : Disciplined publishes K' bs)
    (hK : K' ⊆ knows publishes K as) : Disciplined publishes K (as ++ bs) :=
  disciplined_append.mpr ⟨h, h'.mono hK⟩

theorem Disciplined.flatMap {α : Type*} {f : α → Code κ l} {xs : List α}
    (h : ∀ x, Disciplined publishes K (f x)) : Disciplined publishes K (xs.flatMap f) := by
  induction xs with
  | nil => trivial
  | cons x xs ih => exact (h x).append ih subset_knows

/-! ## No thread fails -/

variable (publishes) in
/-- What is set is published in full, nobody has failed, and the code that each thread has left
passes the check and leads to its goal. -/
structure Sound (goal : ι → Set κ) (s : State ι κ l) : Prop where
  closed : ∀ k ∈ s.cells, publishes k ⊆ s.cells
  threads : ∀ i, ∃ known ⊆ s.cells, Disciplined publishes known (s.rest i) ∧
    goal i ⊆ knows publishes known (s.rest i)
  failed : s.failed = ∅

variable {s s' : State ι κ l} {goal : ι → Set κ} {code : ι → Code κ l} {i : ι}

theorem Sound.start (h : ∀ i, Disciplined publishes ∅ (code i)) :
    Sound publishes (fun i => knows publishes ∅ (code i)) (State.start code) :=
  ⟨fun _ hk => hk.elim, fun i => ⟨∅, subset_rfl, h i, subset_rfl⟩, rfl⟩

/-- At its end a thread has reached its goal. -/
theorem Sound.goal_of_nil (h : Sound publishes goal s) (hrest : s.rest i = []) :
    goal i ⊆ s.cells := by
  obtain ⟨known, hknown, -, hgoal⟩ := h.threads i
  rw [hrest] at hgoal
  exact Set.Subset.trans hgoal hknown

variable [DecidableEq ι] [DecidableEq l]

/-- Sound threads do not fail: their steps are actions that they are ready for. -/
theorem Sound.step_go (h : Sound publishes goal s) (hstep : Step s i s') :
    ∃ a as, s.rest i = a :: as ∧ a.Ready s ∧ s' = ⟨Function.update s.rest i as, s.cells ∪ a.sets,
      Function.update s.guards i (a.guards (s.guards i)), s.failed⟩ := by
  cases hstep with
  | @go a as hrest hready => exact ⟨a, as, hrest, hready, rfl⟩
  | @fail k as hrest hunset =>
    obtain ⟨known, hknown, hcode, -⟩ := h.threads i
    rw [hrest] at hcode
    exact absurd (hknown hcode.1) hunset

/-- One step keeps the invariant. For the thread that moves, what it knows after the action is set;
for the others, more is set than before. A cell that is set now is published in full because the
check asked its thread to know as much. -/
theorem Sound.step (h : Sound publishes goal s) (hstep : Step s i s') :
    Sound publishes goal s' := by
  obtain ⟨a, as, hrest, hready, rfl⟩ := h.step_go hstep
  obtain ⟨known, hknown, hcode, hgoal⟩ := h.threads i
  rw [hrest] at hcode hgoal
  -- what the thread knows after the action is set then
  have hown : ∃ known' ⊆ s.cells ∪ a.sets, Disciplined publishes known' as ∧
      goal i ⊆ knows publishes known' as := by
    cases a with
    | set k =>
      refine ⟨insert k known, ?_, hcode.2, hgoal⟩
      exact Set.insert_subset (.inr rfl) (hknown.trans Set.subset_union_left)
    | await k =>
      refine ⟨insert k (publishes k ∪ known), ?_, hcode, hgoal⟩
      exact Set.insert_subset (.inl hready)
        ((Set.union_subset (h.closed k hready) hknown).trans Set.subset_union_left)
    | use k => exact ⟨known, hknown.trans Set.subset_union_left, hcode.2, hgoal⟩
    | lock r m | unlock r => exact ⟨known, hknown.trans Set.subset_union_left, hcode, hgoal⟩
  refine ⟨fun k hk => ?_, fun j => ?_, h.failed⟩
  -- a cell that was set before, or the one that the action sets
  · rcases hk with hk | hk
    · exact (h.closed k hk).trans Set.subset_union_left
    · cases a with
      | set k' =>
        cases hk
        exact (hcode.1.trans hknown).trans Set.subset_union_left
      | await k' | use k' | lock r m | unlock r => exact hk.elim
  · by_cases hj : j = i
    · subst hj
      simpa only [Function.update_self] using hown
    · obtain ⟨known', hknown', hcode', hgoal'⟩ := h.threads j
      refine ⟨known', hknown'.trans Set.subset_union_left, ?_⟩
      simpa only [Function.update_of_ne hj] using And.intro hcode' hgoal'

/-- **No thread fails**, in any interleaving. -/
theorem Sound.run {es : List ι} (h : Sound publishes goal s) (hrun : Run Step s es s') :
    Sound publishes goal s' :=
  hrun.preserves h fun _ _ _ hsound hstep => hsound.step hstep

end Discipline

/-! ## No circle of waiting threads -/

section Progress

/-- Locks are taken in ascending order, given back, and not held while spinning. -/
def LockOrder [DecidableEq l] (rank : l → ℕ) : Guards l → Code κ l → Prop
  | gs, [] => gs = []
  | gs, .await _ :: as => gs = [] ∧ LockOrder rank gs as
  | gs, .lock r m :: as => (∀ g ∈ gs, rank g.1 < rank r) ∧ LockOrder rank ((r, m) :: gs) as
  | gs, .unlock r :: as => LockOrder rank (gs.filter fun g => g.1 ≠ r) as
  | gs, .set _ :: as | gs, .use _ :: as => LockOrder rank gs as

/-- Cells are awaited before those of a higher order are set. -/
def AwaitOrder (order : κ → ℕ) : Code κ l → Prop
  | [] => True
  | .await k :: as => (∀ k', .set k' ∈ as → order k < order k') ∧ AwaitOrder order as
  | .set _ :: as | .use _ :: as | .lock _ _ :: as | .unlock _ :: as => AwaitOrder order as

/-- A cell that is awaited is below the bound, and one that is set is not. -/
def Action.Bounded (order : κ → ℕ) (n : ℕ) : Action κ l → Prop
  | .await k => order k < n
  | .set k => n ≤ order k
  | .use _ | .lock _ _ | .unlock _ => True

/-- All actions keep to the bound. -/
structure Bounded (order : κ → ℕ) (n : ℕ) (as : Code κ l) : Prop where
  all : ∀ a ∈ as, a.Bounded order n

section Bounded

variable {order : κ → ℕ} {n : ℕ} {a : Action κ l} {as bs : Code κ l}

@[simp] theorem bounded_nil : Bounded order n ([] : Code κ l) := ⟨List.forall_mem_nil _⟩

@[simp] theorem bounded_cons : Bounded order n (a :: as) ↔ a.Bounded order n ∧ Bounded order n as :=
  ⟨fun h => ⟨(List.forall_mem_cons.mp h.all).1, ⟨(List.forall_mem_cons.mp h.all).2⟩⟩,
    fun h => ⟨List.forall_mem_cons.mpr ⟨h.1, h.2.all⟩⟩⟩

@[simp] theorem bounded_append : Bounded order n (as ++ bs) ↔ Bounded order n as ∧
    Bounded order n bs :=
  ⟨fun h => ⟨⟨(List.forall_mem_append.mp h.all).1⟩, ⟨(List.forall_mem_append.mp h.all).2⟩⟩,
    fun h => ⟨List.forall_mem_append.mpr ⟨h.1.all, h.2.all⟩⟩⟩

theorem bounded_flatMap {α : Type*} {f : α → Code κ l} (h : ∀ x, Bounded order n (f x))
    (xs : List α) :
    Bounded order n (xs.flatMap f) := by
  induction xs with
  | nil => exact bounded_nil
  | cons x xs ih => exact bounded_append.mpr ⟨h x, ih⟩

/-- Everything that is awaited comes before everything that is set. -/
theorem Bounded.awaitOrder (h : Bounded order n as) : AwaitOrder order as := by
  induction as with
  | nil => trivial
  | cons a as ih =>
    obtain ⟨hfirst, hrest⟩ := bounded_cons.mp h
    cases a with
    | await k => exact ⟨fun k' hk' => Nat.lt_of_lt_of_le hfirst (hrest.all _ hk'), ih hrest⟩
    | set k | use k | lock r m | unlock r => exact ih hrest

end Bounded

variable [DecidableEq l] {rank : l → ℕ} {order : κ → ℕ} {n : ℕ} {as bs : Code κ l}

variable (rank) in
/-- Code that keeps the order of the locks wherever only locks below `n` are held. -/
structure Nested (n : ℕ) (as : Code κ l) : Prop where
  before : ∀ gs bs, (∀ g ∈ gs, rank g.1 < n) → LockOrder rank gs bs → LockOrder rank gs (as ++ bs)

namespace Nested

theorem nil : Nested rank n ([] : Code κ l) := ⟨fun _ _ _ h => h⟩

theorem append (h : Nested rank n as) (h' : Nested rank n bs) : Nested rank n (as ++ bs) := by
  refine ⟨fun gs cs hgs hcs => ?_⟩
  rw [List.append_assoc]
  exact h.before gs _ hgs (h'.before gs cs hgs hcs)

theorem mono {n' : ℕ} (h : Nested rank n as) (hn : n' ≤ n) : Nested rank n' as :=
  ⟨fun gs bs hgs hbs => h.before gs bs (fun g hg => Nat.lt_of_lt_of_le (hgs g hg) hn) hbs⟩

theorem set (k : κ) (h : Nested rank n as) : Nested rank n (.set k :: as) := ⟨h.before⟩

theorem use (k : κ) (h : Nested rank n as) : Nested rank n (.use k :: as) := ⟨h.before⟩

/-- Spinning is allowed where no lock is held. -/
theorem await (k : κ) (h : Nested rank 0 as) : Nested rank 0 (.await k :: as) := by
  refine ⟨fun gs bs hgs hbs =>
    ⟨List.eq_nil_iff_forall_not_mem.mpr fun g hg => ?_, h.before gs bs hgs hbs⟩⟩
  exact Nat.not_lt_zero _ (hgs g hg)

/-- What is done under a lock. The lock may be taken where all guards are of lower rank, and the
code under it may take locks of higher rank; after the release the guards are what they were. -/
theorem section_lock {r : l} {m : LockMode} (h : Nested rank (rank r + 1) as) (hn : n ≤ rank r) :
    Nested rank n (.lock r m :: (as ++ [.unlock r])) := by
  refine ⟨fun gs bs hgs hbs => ?_⟩
  have hlt : ∀ g ∈ gs, rank g.1 < rank r := fun g hg => Nat.lt_of_lt_of_le (hgs g hg) hn
  have hkeep : gs.filter (fun g => g.1 ≠ r) = gs := by
    refine List.filter_eq_self.mpr fun g hg => ?_
    simpa using fun heq : g.1 = r => Nat.lt_irrefl _ (heq ▸ hlt g hg)
  refine ⟨hlt, ?_⟩
  change LockOrder rank ((r, m) :: gs) (as ++ [.unlock r] ++ bs)
  rw [List.append_assoc]
  refine h.before _ _ (fun g hg => ?_) ?_
  · rcases List.mem_cons.mp hg with rfl | hg
    · exact Nat.lt_succ_self _
    · exact Nat.lt_succ_of_lt (hlt g hg)
  · have hdrop : ((r, m) :: gs).filter (fun g => g.1 ≠ r) = gs := by
      rw [List.filter_cons_of_neg (by simp), hkeep]
    change LockOrder rank (((r, m) :: gs).filter fun g => g.1 ≠ r) bs
    rwa [hdrop]

theorem flatMap {α : Type*} {f : α → Code κ l} {xs : List α} (h : ∀ x, Nested rank n (f x)) :
    Nested rank n (xs.flatMap f) := by
  induction xs with
  | nil => exact nil
  | cons x xs ih => exact (h x).append ih

theorem lockOrder (h : Nested rank 0 as) : LockOrder rank [] as := by
  simpa using h.before [] [] (by simp) rfl

end Nested

variable (rank order) in
/-- Every thread keeps the orders, and whatever is awaited is set or will be. -/
structure Live (s : State ι κ l) : Prop where
  locks : ∀ i, LockOrder rank (s.guards i) (s.rest i)
  awaits : ∀ i, AwaitOrder order (s.rest i)
  provided : ∀ i k, .await k ∈ s.rest i → k ∈ s.cells ∨ ∃ j, .set k ∈ s.rest j

variable {s s' : State ι κ l} {code : ι → Code κ l} {publishes : κ → Set κ} {goal : ι → Set κ}
  {i : ι}

theorem Live.start (hlocks : ∀ i, Nested rank 0 (code i)) (hawaits : ∀ i, AwaitOrder order (code i))
    (hprovided : ∀ i k, .await k ∈ code i → ∃ j, .set k ∈ code j) :
    Live rank order (State.start code) :=
  ⟨fun i => (hlocks i).lockOrder, hawaits, fun i k hk => .inr (hprovided i k hk)⟩

omit [DecidableEq l] in
theorem AwaitOrder.tail {a : Action κ l} (h : AwaitOrder order (a :: as)) :
    AwaitOrder order as := by
  cases a with
  | await k => exact h.2
  | set k | use k | lock r m | unlock r => exact h

theorem LockOrder.tail {a : Action κ l} {gs : Guards l} (h : LockOrder rank gs (a :: as)) :
    LockOrder rank (a.guards gs) as := by
  cases a with
  | await k | lock r m => exact h.2
  | set k | use k | unlock r => exact h

variable [DecidableEq ι]

/-- One step keeps both orders, and whatever is awaited is still set or still to be set. -/
theorem Live.step (h : Live rank order s) (hsound : Sound publishes goal s) (hstep : Step s i s') :
    Live rank order s' := by
  obtain ⟨a, as, hrest, -, rfl⟩ := hsound.step_go hstep
  -- no thread gets more code
  have hsub (j : ι) {b : Action κ l} (hb : b ∈ Function.update s.rest i as j) : b ∈ s.rest j := by
    by_cases hj : j = i
    · subst hj
      rw [Function.update_self] at hb
      rw [hrest]
      exact List.mem_cons_of_mem _ hb
    · rwa [Function.update_of_ne hj] at hb
  refine ⟨fun j => ?_, fun j => ?_, fun j k hk => ?_⟩
  · by_cases hj : j = i
    · subst hj
      have hlocks := h.locks j
      rw [hrest] at hlocks
      simpa only [Function.update_self] using hlocks.tail
    · simpa only [Function.update_of_ne hj] using h.locks j
  · by_cases hj : j = i
    · subst hj
      have hawaits := h.awaits j
      rw [hrest] at hawaits
      simpa only [Function.update_self] using hawaits.tail
    · simpa only [Function.update_of_ne hj] using h.awaits j
  -- the thread that will set the cell has done so now, or has it before it still
  · rcases h.provided j k (hsub j hk) with hset | ⟨j', hj'⟩
    · exact .inl (.inl hset)
    · by_cases heq : j' = i
      · subst heq
        rw [hrest] at hj'
        rcases List.mem_cons.mp hj' with rfl | hmem
        · exact .inl (.inr rfl)
        · exact .inr ⟨j', by simpa only [Function.update_self] using hmem⟩
      · exact .inr ⟨j', by simpa only [Function.update_of_ne heq] using hj'⟩

theorem Live.run {es : List ι} (h : Live rank order s) (hsound : Sound publishes goal s)
    (hrun : Run Step s es s') : Live rank order s' :=
  (hrun.preserves (I := fun s => Live rank order s ∧ Sound publishes goal s) ⟨h, hsound⟩
    fun _ _ _ ⟨hlive, hs⟩ hstep => ⟨hlive.step hs hstep, hs.step hstep⟩).1

/-- Threads that spin are above those that wait for a lock, and these above those that can go on. -/
def height (rank : l → ℕ) (order : κ → ℕ) (top : ℕ) : Code κ l → ℕ
  | .await k :: _ => top + 1 + order k
  | .lock r _ :: _ => top - rank r
  | _ => 0

/-- Unless all threads are at their end, one of them can go on. A thread that waits, waits for one
of lower `height`: for the thread that will set the cell, or for the holder of the lock. -/
theorem Live.progress {top : ℕ} (h : Live rank order s) (htop : ∀ r, rank r < top)
    (hbusy : s.rest i ≠ []) : ∃ j s', Step s j s' := by
  have hwaits (i : ι) (hi : s.rest i ≠ []) : (∃ s', Step s i s') ∨ ∃ j, s.rest j ≠ [] ∧
      height rank order top (s.rest j) < height rank order top (s.rest i) := by
    obtain ⟨a, as, hrest⟩ := List.exists_cons_of_ne_nil hi
    by_cases hready : a.Ready s
    · exact .inl ⟨_, .go hrest hready⟩
    · cases a with
      | set k | unlock r => exact absurd trivial hready
      -- a use that is not ready is a failure, and that is a step as well
      | use k => exact .inl ⟨_, .fail hrest hready⟩
      | await k =>
        -- whoever will set the cell awaits at most cells of a lower order
        right
        obtain ⟨j, hj⟩ := (h.provided i k (hrest ▸ List.mem_cons_self)).resolve_left hready
        refine ⟨j, List.ne_nil_of_mem hj, ?_⟩
        have hawaits := h.awaits j
        rw [hrest]
        cases hnext : s.rest j with
        | nil =>
          rw [hnext] at hj
          cases hj
        | cons b bs =>
          rw [hnext] at hj hawaits
          cases b with
          | await k' =>
            have hlt : order k' < order k := hawaits.1 k (by simpa using hj)
            simp only [height]
            omega
          | set k' | use k' | lock r m | unlock r =>
            simp only [height]
            omega
      | lock r m =>
        -- the holder does not spin, and waits at most for a lock further up
        right
        obtain ⟨j, m', hj⟩ := exists_of_not_grants hready
        have hlocks := h.locks j
        have hr := htop r
        cases hnext : s.rest j with
        | nil =>
          rw [hnext] at hlocks
          rw [State.Holds, show s.guards j = [] from hlocks] at hj
          cases hj
        | cons b bs =>
          refine ⟨j, by simp [hnext], ?_⟩
          rw [hnext] at hlocks
          rw [hrest, hnext]
          cases b with
          | await k =>
            rw [State.Holds, hlocks.1] at hj
            cases hj
          | lock r' m'' =>
            have hlt : rank r < rank r' := hlocks.1 _ hj
            simp only [height]
            omega
          | set k | use k | unlock r' =>
            simp only [height]
            omega
  exact exists_able_of_rank (fun i => height rank order top (s.rest i)) hwaits hbusy

/-- The modes in which a lock is held at the same time do not exclude each other. -/
theorem Sound.excludes {es : List ι} (h : Sound publishes goal s) (hguards : ∀ i, s.guards i = [])
    (hrun : Run Step s es s') (r : l) : Excludes (s'.Holds r) := by
  refine (hrun.preserves (I := fun s => Sound publishes goal s ∧ Excludes (s.Holds r)) ⟨h, ?_⟩ ?_).2
  · intro i j m m' _ hi
    rw [State.Holds, hguards i] at hi
    cases hi
  · rintro s₁ i s₂ ⟨hsound, hexcl⟩ hstep
    refine ⟨hsound.step hstep, ?_⟩
    obtain ⟨a, as, -, hready, rfl⟩ := hsound.step_go hstep
    refine hexcl.step (i := i) (fun j m hj hm => ?_) fun m hm => ?_
    · simpa only [State.Holds, Function.update_of_ne hj] using hm
    · simp only [State.Holds, Function.update_self] at hm
      cases a with
      | lock r' m' =>
        rcases List.mem_cons.mp hm with heq | hm
        · cases heq
          exact .inr (.inl hready)
        · exact .inl hm
      | unlock r' => exact .inl (List.mem_filter.mp hm).1
      | set k | use k | await k => exact .inl hm

/-- What a set of threads has left to do. -/
def left (threads : Finset ι) (s : State ι κ l) : ℕ := ∑ i ∈ threads, (s.rest i).length

/-- Every step is one action less. -/
theorem Sound.left_step {threads : Finset ι} (h : Sound publishes goal s)
    (hidle : ∀ i ∉ threads, s.rest i = []) (hstep : Step s i s') :
    left threads s' + 1 = left threads s ∧ ∀ i ∉ threads, s'.rest i = [] := by
  obtain ⟨a, as, hrest, -, rfl⟩ := h.step_go hstep
  have hi : i ∈ threads := Classical.byContradiction fun hi => by
    rw [hidle i hi] at hrest
    cases hrest
  refine ⟨?_, fun j hj => ?_⟩
  · have hothers : ∑ j ∈ threads.erase i, (Function.update s.rest i as j).length =
        ∑ j ∈ threads.erase i, (s.rest j).length := by
      refine Finset.sum_congr rfl fun j hj => ?_
      rw [Function.update_of_ne (Finset.ne_of_mem_erase hj)]
    have hown : (Function.update s.rest i as i).length + 1 = (s.rest i).length := by
      rw [Function.update_self, hrest, List.length_cons]
    simp only [left]
    rw [← Finset.add_sum_erase _ _ hi, ← Finset.add_sum_erase _ _ hi, hothers]
    omega
  · have hne : j ≠ i := fun heq => hj (heq ▸ hi)
    exact (Function.update_of_ne hne ..).trans (hidle j hj)

/-- The steps made, and what is left to do. -/
theorem Sound.length_add_left {threads : Finset ι} {es : List ι} (h : Sound publishes goal s)
    (hidle : ∀ i ∉ threads, s.rest i = []) (hrun : Run Step s es s') :
    es.length + left threads s' = left threads s := by
  refine (hrun.invariant (I := fun n s' => Sound publishes goal s' ∧
    (∀ i ∉ threads, s'.rest i = []) ∧ n + left threads s' = left threads s)
    ⟨h, hidle, Nat.zero_add _⟩ ?_).2.2
  rintro n s₁ i s₂ - ⟨hsound, hidle₁, hleft⟩ hstep
  obtain ⟨hone, hidle₂⟩ := hsound.left_step hidle₁ hstep
  exact ⟨hsound.step hstep, hidle₂, by omega⟩

/-- From any state some run leads all threads to their end. -/
theorem Live.completes {threads : Finset ι} {top : ℕ} (h : Live rank order s)
    (hsound : Sound publishes goal s) (htop : ∀ r, rank r < top)
    (hidle : ∀ i ∉ threads, s.rest i = []) :
    ∃ es s', Run Step s es s' ∧ ∀ i, s'.rest i = [] := by
  induction hn : left threads s generalizing s with
  | zero =>
    refine ⟨[], s, .nil s, fun i => Classical.byContradiction fun hi => ?_⟩
    obtain ⟨j, s', hstep⟩ := h.progress htop hi
    have hone := (hsound.left_step hidle hstep).1
    omega
  | succ n ih =>
    by_cases hend : ∀ i, s.rest i = []
    · exact ⟨[], s, .nil s, hend⟩
    · obtain ⟨i, hi⟩ := not_forall.mp hend
      obtain ⟨j, s₁, hstep⟩ := h.progress htop hi
      obtain ⟨hone, hidle₁⟩ := hsound.left_step hidle hstep
      obtain ⟨es, s', hrun, hend'⟩ := ih (h.step hsound hstep) (hsound.step hstep) hidle₁ (by omega)
      exact ⟨[j] ++ es, s', (Run.single hstep).append hrun, hend'⟩

end Progress

end HeliumOS.Lib.Startup
