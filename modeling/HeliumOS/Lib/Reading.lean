import HeliumOS.Lib.ByteMemory

/-!
# Programs That Read Memory

`Reading α` is the syntax of a program that may read bytes of a memory and returns an `α`.  What it
reads next depends on the bytes it has read before.

- `run` is the result for a memory, and `reads` are the addresses of the bytes on the way to it.
- `run_bind` and `reads_bind` take a program apart; `reads_andM` is the rule of a condition whose
  second half is evaluated only when the first one holds.
- `InBounds` says that all reads are below an address; its rules follow the program.
-/

namespace HeliumOS.Lib

/-! ## Syntax -/

/-- A program that reads bytes and returns an `α`. -/
inductive Reading (α : Type) : Type where
  | pure (a : α)
  | byte (adr : ℕ) (k : BitVec 8 → Reading α)

namespace Reading

variable {α β : Type}

/-- Sequencing. -/
protected def bind : Reading α → (α → Reading β) → Reading β
  | .pure a, f => f a
  | .byte adr k, f => .byte adr fun b => (k b).bind f

instance : Monad Reading where
  pure := .pure
  bind := .bind

/-- Read `n` bytes from `adr` on. -/
def bytes : ℕ → ℕ → Reading (List (BitVec 8))
  | _, 0 => return []
  | adr, n + 1 => .byte adr fun b => do return b :: (← bytes (adr + 1) n)

/-- Read the number in `n` bytes, the lowest one first. -/
def number (adr n : ℕ) : Reading ℕ := leNat <$> bytes adr n

/-! ## Results and reads -/

/-- The result of the program. -/
def run (m : ByteMemory) : Reading α → α
  | .pure a => a
  | .byte adr k => (k (m adr)).run m

/-- The addresses that the program reads. -/
def reads (m : ByteMemory) : Reading α → List ℕ
  | .pure _ => []
  | .byte adr k => adr :: (k (m adr)).reads m

/-- All reads are below `n`. -/
def InBounds (m : ByteMemory) (n : ℕ) (x : Reading α) : Prop := ∀ a ∈ x.reads m, a < n

variable {m : ByteMemory} {x : Reading α} {f : α → Reading β} {adr n k : ℕ}

@[simp] theorem run_pure (a : α) : (Pure.pure a : Reading α).run m = a := rfl

@[simp] theorem run_bind : (x >>= f).run m = (f (x.run m)).run m := by
  induction x with
  | pure a => rfl
  | byte adr k ih => exact ih (m adr)

@[simp] theorem reads_bind : (x >>= f).reads m = x.reads m ++ (f (x.run m)).reads m := by
  induction x with
  | pure a => rfl
  | byte adr k ih => exact congrArg (adr :: ·) (ih (m adr))

@[simp] theorem run_map (g : α → β) : (g <$> x).run m = g (x.run m) := run_bind

@[simp] theorem reads_map (g : α → β) : (g <$> x).reads m = x.reads m :=
  reads_bind.trans (List.append_nil _)

@[simp] theorem run_andM {x y : Reading Bool} : (x <&&> y).run m = (x.run m && y.run m) := by
  rw [andM, run_bind]
  cases x.run m <;> rfl

/-- The second condition is read only if the first one holds. -/
theorem reads_andM {x y : Reading Bool} :
    (x <&&> y).reads m = x.reads m ++ if x.run m then y.reads m else [] := by
  rw [andM, reads_bind]
  cases x.run m <;> rfl

@[simp] theorem run_bytes : (bytes adr n).run m = m.slice adr n := by
  induction n generalizing adr with
  | zero => rfl
  | succ n ih =>
    have hrest : (bytes adr (n + 1)).run m = m adr :: (bytes (adr + 1) n).run m := run_bind
    rw [hrest, ih, Nat.add_comm n, ByteMemory.slice_add]
    rfl

@[simp] theorem reads_bytes : (bytes adr n).reads m = List.range' adr n := by
  induction n generalizing adr with
  | zero => rfl
  | succ n ih =>
    have hrest : (bytes adr (n + 1)).reads m = adr :: (bytes (adr + 1) n).reads m :=
      congrArg (adr :: ·) (reads_bind.trans (List.append_nil _))
    rw [hrest, ih, List.range'_succ]

@[simp] theorem run_number : (number adr n).run m = leNat (m.slice adr n) := by
  rw [number, run_map, run_bytes]

/-! ## Bounds -/

theorem inBounds_pure (a : α) : (Pure.pure a : Reading α).InBounds m n :=
  fun _ ha => absurd ha List.not_mem_nil

/-- A program in sequence is in bounds when both parts are, the second one on what the first one
returned. -/
theorem inBounds_bind : (x >>= f).InBounds m n ↔ x.InBounds m n ∧ (f (x.run m)).InBounds m n := by
  simp only [InBounds, reads_bind, List.forall_mem_append]

theorem inBounds_map {g : α → β} : (g <$> x).InBounds m n ↔ x.InBounds m n := by
  rw [InBounds, reads_map, InBounds]

theorem inBounds_andM {x y : Reading Bool} :
    (x <&&> y).InBounds m n ↔ x.InBounds m n ∧ (x.run m = true → y.InBounds m n) := by
  rw [InBounds, reads_andM, List.forall_mem_append]
  refine and_congr_right fun _ => ?_
  split_ifs with h
  · exact ⟨fun hy _ => hy, fun hy => hy h⟩
  · exact iff_of_true (fun _ hmem => absurd hmem List.not_mem_nil) fun h' => absurd h' h

theorem inBounds_bytes (hn : n ≠ 0) : (bytes adr n).InBounds m k ↔ adr + n ≤ k := by
  rw [InBounds, reads_bytes]
  constructor
  · intro h
    have := h (adr + n - 1) (List.mem_range'_1.mpr (by omega))
    omega
  · intro h a ha
    have := (List.mem_range'_1.mp ha).2
    omega

theorem inBounds_number (hn : n ≠ 0) : (number adr n).InBounds m k ↔ adr + n ≤ k := by
  rw [number, inBounds_map, inBounds_bytes hn]

end Reading

end HeliumOS.Lib
