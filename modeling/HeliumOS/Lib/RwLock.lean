import Mathlib.Data.Nat.Notation
import Mathlib.Tactic.TypeStar

/-!
# Readers, Writers and Upgradeable Readers

A lock that any number of readers share, next to at most one upgradeable reader, and that a writer
has for itself.  Who holds it is a relation between holders and modes; it can be read off the local
variables of the holders, where the guards live.

- `Excludes`: no two holders are in modes that exclude each other.
- `Excludes.step`: one holder at a time acquires, upgrades, downgrades or releases, and `Excludes`
  stays.
- `exists_able_of_rank`: if whoever has to wait waits for somebody of a lower rank, somebody can go
  on.
-/

namespace HeliumOS.Lib

/-- The ways to hold a lock. -/
inductive LockMode where
  | read
  | upgradeable
  | write
  deriving DecidableEq, Repr

/-- Two holders can be in these modes at the same time. -/
def LockMode.Compatible : LockMode → LockMode → Prop
  | .read, .read | .read, .upgradeable | .upgradeable, .read => True
  | .upgradeable, .upgradeable | .write, _ | _, .write => False

namespace LockMode

variable {m m' : LockMode}

theorem Compatible.symm (h : m.Compatible m') : m'.Compatible m := by
  cases m <;> cases m' <;> trivial

theorem not_compatible_write : ¬ LockMode.write.Compatible m := by
  cases m <;> exact id

/-- Whoever holds the lock can do with reading it. -/
theorem Compatible.read (h : m.Compatible m') : LockMode.read.Compatible m' := by
  cases m <;> cases m' <;> trivial

end LockMode

variable {ι : Type*}

/-- Holders of modes that exclude each other are one. -/
def Excludes (H : ι → LockMode → Prop) : Prop :=
  ∀ i j m m', i ≠ j → H i m → H j m' → m.Compatible m'

/-- The lock is given away in a mode.  New readers are kept out by an upgradeable one, although the
two can hold it together. -/
def Grants (H : ι → LockMode → Prop) : LockMode → Prop
  | .read | .upgradeable => ∀ j, ¬ H j .upgradeable ∧ ¬ H j .write
  | .write => ∀ j m, ¬ H j m

/-- Nobody else holds the lock: an upgradeable reader becomes the writer. -/
def Alone (H : ι → LockMode → Prop) (i : ι) : Prop := ∀ j m, j ≠ i → ¬ H j m

section Step

variable {H H' : ι → LockMode → Prop} {i j : ι} {m m' : LockMode}

theorem Grants.compatible (h : Grants H m) (hj : H j m') : m.Compatible m' := by
  cases m with
  | write => exact absurd hj (h j m')
  | read =>
    cases m' with
    | read => trivial
    | upgradeable => exact absurd hj (h j).1
    | write => exact absurd hj (h j).2
  | upgradeable =>
    cases m' with
    | read => trivial
    | upgradeable => exact absurd hj (h j).1
    | write => exact absurd hj (h j).2

/-- A lock is refused because of somebody who holds it. -/
theorem exists_of_not_grants (h : ¬ Grants H m) : ∃ j m', H j m' := by
  refine Classical.byContradiction fun hnone => h ?_
  have hno (j : ι) (m' : LockMode) : ¬ H j m' := fun hj => hnone ⟨j, m', hj⟩
  cases m with
  | read => exact fun j => ⟨hno j _, hno j _⟩
  | upgradeable => exact fun j => ⟨hno j _, hno j _⟩
  | write => exact hno

/-- An upgradeable reader is kept waiting by readers. -/
theorem Excludes.exists_reader (h : Excludes H) (hi : H i .upgradeable) (hwait : ¬ Alone H i) :
    ∃ j, j ≠ i ∧ H j .read := by
  refine Classical.byContradiction fun hnone => hwait fun j m hne hj => ?_
  cases m with
  | read => exact hnone ⟨j, hne, hj⟩
  | upgradeable => exact h i j .upgradeable .upgradeable hne.symm hi hj
  | write => exact h i j .upgradeable .write hne.symm hi hj

/-- One holder's turn.  A mode that it has afterwards it had before, or the lock was given to it, or
it was alone, or it reads on what it held. -/
theorem Excludes.step (h : Excludes H) (hothers : ∀ j m, j ≠ i → H' j m → H j m)
    (hown : ∀ m, H' i m → H i m ∨ Grants H m ∨ Alone H i ∨ (m = .read ∧ ∃ m₀, H i m₀)) :
    Excludes H' := by
  have hone (j : ι) (m m' : LockMode) (hne : i ≠ j) (hi : H' i m) (hj : H' j m') :
      m.Compatible m' := by
    have hj' := hothers j m' hne.symm hj
    rcases hown m hi with hold | hgrants | halone | ⟨rfl, m₀, hold⟩
    · exact h i j m m' hne hold hj'
    · exact hgrants.compatible hj'
    · exact absurd hj' (halone j m' hne.symm)
    · exact (h i j m₀ m' hne hold hj').read
  intro k l m m' hne hk hl
  by_cases hki : i = k
  · subst hki
    exact hone l m m' hne hk hl
  · by_cases hli : i = l
    · subst hli
      exact (hone k m' m hki hl hk).symm
    · exact h k l m m' hne (hothers k m (Ne.symm hki) hk) (hothers l m' (Ne.symm hli) hl)

/-- What a writer holds nobody else holds. -/
theorem Excludes.eq_of_write (h : Excludes H) (hi : H i .write) (hj : H j m) : i = j :=
  Classical.byContradiction fun hne => LockMode.not_compatible_write (h i j .write m hne hi hj)

end Step

/-- If everybody who is busy can go on, or waits for somebody busy of a lower rank, then somebody
can go on. -/
theorem exists_able_of_rank {busy able : ι → Prop} (rank : ι → ℕ)
    (hwaits : ∀ i, busy i → able i ∨ ∃ j, busy j ∧ rank j < rank i) {i : ι} (hi : busy i) :
    ∃ j, able j := by
  induction hn : rank i using Nat.strongRecOn generalizing i with
  | _ n ih =>
    rcases hwaits i hi with hable | ⟨j, hj, hlt⟩
    · exact ⟨i, hable⟩
    · exact ih (rank j) (hn ▸ hlt) hj rfl

end HeliumOS.Lib
