import HeliumOS.Acpi.Layout
import HeliumOS.Lib.Follows
import HeliumOS.Proc.Apic

/-!
# Walking the ACPI Tables

`walk_recursive` of `acpi/mod.rs`.  An `XSDT` lists the physical addresses of other tables, each of
which is mapped and walked in its turn; any other table goes to the handlers that `cfgtb.rs` has for
its signature.  The recursion of the model has a depth and the loop of a handler a number of turns,
and a walk that needs more says so.

The walk is written once, over a `Machine`, and run on two of them.

- `kernel` is the kernel: references are read through virtual memory, `getvadr` takes frames for
  page tables, and `acpi_handler` maps the I/O APICs that it finds.
- `plan` is the layout of the tables, on which the walk needs nothing but the contents of physical
  memory.  It does not say what happens when a table lies in free memory or in a page table.

The kernel does what the plan says (`init_follows`): operation by operation for `getvadr`
(`getvadr_follows`) and for `acpi_handler` (`acpiHandler_follows`), and from there by the rules of
the constructs of the program.
-/

namespace HeliumOS.Acpi

open HeliumOS.Lib HeliumOS.Lib.AllocProg HeliumOS.Mem HeliumOS.Mem.Virt HeliumOS.Proc

/-! ## The walk -/

/-- Why the model stops a walk. -/
inductive Halt where
  /-- The length of an `XSDT` is less than the size of its header. -/
  | underflow
  /-- There are more recursive calls inside each other than the depth allows. -/
  | deeper
  /-- The loop of a handler makes more turns than it is allowed. -/
  | loops
  deriving DecidableEq

/-- What a walk is run on. -/
structure Machine (m : Type → Type) where
  lift {α : Type} : Except Panic α → m α
  halt {α : Type} : Halt → m α
  /-- The bytes behind a reference. -/
  view : ℕ → m View
  /-- `getvadr`. -/
  getvadr : ℕ → m ℕ
  /-- `proc::apic::cfgtb::acpi_handler`. -/
  acpiHandler : ℕ → m Unit

/-- `cfgtb::acpi::Handler`: the functions that are registered. -/
inductive Handler where
  | acpiHandler
  deriving DecidableEq

/-- `cfgtb::acpi::HANDLERS`. -/
abbrev Handlers := List (BitVec 8) → Option (List Handler)

/-- `cfgtb::acpi::register`. -/
def register (signature : List (BitVec 8)) (handler : Handler) (handlers : Handlers) : Handlers :=
  Function.update handlers signature (some ((handlers signature).getD [] ++ [handler]))

/-- `cfgtb::acpi::init`. -/
def cfgtbInit : Handlers := register [0x41, 0x50, 0x49, 0x43] .acpiHandler fun _ => none

/-- The bytes of `XSDT`. -/
def Xsdt.signature : List (BitVec 8) := [0x58, 0x53, 0x44, 0x54]

section Program

variable {m : Type → Type} [Monad m] (x : Machine m)

/-- `Xsdt::len`. -/
def Xsdt.len (head : ℕ) : m ℕ := do
  let len ← x.lift (AcpiHeader.len (← x.view head))
  if len < AcpiHeader.byteSize then x.halt .underflow else return (len - AcpiHeader.byteSize) / 8

/-- `Xsdt::sslist`. -/
def Xsdt.sslist (head index : ℕ) : m ℕ := do
  let n ← Xsdt.len x head
  let _ ← x.lift (ensure .xsdtIndex (index < n))
  let v ← x.view head
  let bytes ← x.lift (v.bytes (AcpiHeader.byteSize + 8 * index) 8)
  x.lift (physAddr (leNat bytes))

/-- `Xsdt::at`. -/
def Xsdt.at (head index : ℕ) : m ℕ := do
  let padr ← Xsdt.sslist x head index
  x.getvadr padr

/-- A handler of the table. -/
def Handler.run (table : ℕ) : Handler → m Unit
  | .acpiHandler => x.acpiHandler table

/-- `cfgtb::acpi::call`. -/
def call (signature : List (BitVec 8)) (table : ℕ) : m Bool :=
  match cfgtbInit signature with
  | some list => do
    list.forM (Handler.run x table)
    return !list.isEmpty
  | none => return false

/-- `walk_recursive` up to the loop over the entries of an `XSDT`; the result is their number.  The
assertions of `Xsdt::from` repeat the two checks before it.  Printing is left out. -/
def visit (head : ℕ) : m (Option ℕ) := do
  let valid ← x.lift (AcpiHeader.verifyChecksum (← x.view head))
  if valid = false then return none
  else do
    let sig ← x.lift (AcpiHeader.signature (← x.view head))
    if sig = Xsdt.signature then do
      let n ← Xsdt.len x head
      return some n
    else do
      let _ ← call x sig head
      return none

/-- The loop of `walk_recursive` over the entries of an `XSDT`, from `index` on with `n` entries to
go. -/
def walkEntries (walk : ℕ → m Unit) (head : ℕ) : ℕ → ℕ → m Unit
  | 0, _ => return ()
  | n + 1, index => do
    let next ← Xsdt.at x head index
    walk next
    walkEntries walk head n (index + 1)

/-- `walk_recursive`, to a depth. -/
def walkRecursive : ℕ → ℕ → m Unit
  | 0, _ => x.halt .deeper
  | depth + 1, head => do
    match ← visit x head with
    | none => return ()
    | some n => walkEntries x (walkRecursive depth) head n 0

/-- `acpi::init`, for the address that the boot loader gives. -/
def init (depth acpiPtr : ℕ) : m Unit := do
  let padr ← x.lift (physAddr acpiPtr)
  let xsdt ← x.getvadr padr
  walkRecursive x depth xsdt

end Program

/-! ## The kernel -/

/-- The statics that a walk changes, virtual memory, and the variables of `acpi::init`. -/
structure WalkState extends ApicState where
  vmemmap : PhysFrame → Option Page
  pgindex : ℕ

namespace WalkState

/-- The state at the start of `acpi::init`. -/
def new (apic : ApicState) : WalkState := ⟨apic, fun _ => none, 0⟩

/-- What `getvadr` sees of the state. -/
def acpi (s : WalkState) : AcpiState := ⟨s.vm, s.vmemmap, s.pgindex⟩

def setAcpi (s : WalkState) (a : AcpiState) : WalkState :=
  { s with vm := a.vm, vmemmap := a.vmemmap, pgindex := a.pgindex }

/-- What handlers see of the state. -/
def setApic (s : WalkState) (a : ApicState) : WalkState := { s with toApicState := a }

end WalkState

/-- The end of a handler: with `none` its loop has not ended. -/
def finishHandler (s : WalkState) : Option ApicState → Kernel (Except Halt (Unit × WalkState))
  | none => return .error .loops
  | some a => return .ok ((), s.setApic a)

/-- The kernel, with the given number of turns for the loop of a handler. -/
def kernel (devices : PhysFrame → IoApicRegisterMap) (turns : ℕ) :
    Machine (Impl WalkState PhysFrame Panic Halt) where
  lift := Impl.lift
  halt := Impl.halt
  view adr := Impl.read fun s => viewAt s.vm adr
  getvadr padr := fun s => do
    let (adr, a) ← getvadr padr s.acpi
    return .ok (adr, s.setAcpi a)
  acpiHandler adr := fun s => do
    let r ← acpiHandler devices turns (fun vm => viewAt vm adr) s.toApicState
    finishHandler s r

/-! ## The plan -/

/-- The layout of the tables, and what handlers count. -/
structure Outline extends Layout where
  numcores : ℕ
  ioapics : ℕ

/-- The outline at the start of `acpi::init`. -/
def Outline.of (apic : ApicState) : Outline := ⟨.of apic.vm, apic.numcores, apic.ioapic.length⟩

section Plan

variable (R : ℕ → Prop) [DecidablePred R] (m : ByteMemory)

/-- `getvadr`.  The frames of a table have to be reserved. -/
def Outline.getvadr (padr : ℕ) : Plan Outline Halt ℕ := fun o =>
  if o.vmemmap (padr / pageSize) = none ∧ ¬ R (padr / pageSize) then .error .unknown
  else match o.toLayout.getvadr m padr with
    | .error _ => .error .fails
    | .ok (adr, L) =>
      if ∀ i < L.pgindex - o.pgindex,
        R (padr / pageSize + i) then .ok (adr, { o with toLayout := L })
      else .error .unknown

/-- The body of the loop of `acpi_handler`.  The I/O APICs are mapped from `VBASE` on, in front of
the tables. -/
def Outline.handleEntry (entry : MadtEntry) : Plan Outline Halt Unit := fun o =>
  match entry with
  | .localApic _ =>
    if o.numcores + 1 < 2 ^ 64 then .ok ((), { o with numcores := o.numcores + 1 })
      else .error .fails
  | .ioApic ioapic =>
    if ioapic.ioapicAdr.toNat % pageSize ≠ 0 then .error .fails
    else if VBASE.num + o.ioapics < TABLE_VBASE.num
      then .ok ((), { o with ioapics := o.ioapics + 1 })
    else .error .unknown
  | _ => .ok ((), o)

/-- The loop of `acpi_handler`. -/
def Outline.scan (adr : ℕ) : ℕ → ℕ → Plan Outline Halt Unit
  | 0, _ => Plan.halt .loops
  | turns + 1, cursor => do
    let v ← Plan.read fun o => o.toLayout.view m adr
    match ← Plan.lift (MadtIterator.nextIn v cursor) with
    | none => return ()
    | some (entry, cursor) => do
      Outline.handleEntry entry
      Outline.scan adr turns cursor

/-- `acpi_handler`. -/
def Outline.acpiHandler (turns adr : ℕ) : Plan Outline Halt Unit := do
  let v ← Plan.read fun o => o.toLayout.view m adr
  let madt ← Plan.lift (Madt.from v)
  Outline.scan m adr turns madt.iter.cursor

/-- The layout of the tables in physical memory `m`, of which the frames `R` are reserved. -/
def plan (turns : ℕ) : Machine (Plan Outline Halt) where
  lift := Plan.lift
  halt := Plan.halt
  view adr := Plan.read fun o => o.toLayout.view m adr
  getvadr := Outline.getvadr R m
  acpiHandler := Outline.acpiHandler m turns

end Plan

/-! ## The kernel follows the plan -/

/-- The state of the kernel, some steps after `vm₀`, has this outline.  All frames behind
`TABLE_VBASE` are reserved. -/
structure Tracks (R : ℕ → Prop) (vm₀ : Vm) (F₀ : Set PhysFrame) (s : WalkState) (o : Outline)
    (F : Set PhysFrame) : Prop where
  shows : Shows R vm₀ F₀ s.acpi o.toLayout F
  reserved : ∀ i n, o.pages i = some n → R n
  numcores : s.numcores = o.numcores
  ioapics : s.ioapic.length = o.ioapics

section Operations

variable {R : ℕ → Prop} {vm₀ : Vm} {F₀ F F' M : Set PhysFrame} {s : WalkState} {o : Outline}
  {adr : ℕ}

theorem Tracks.viewAt_eq (h : Tracks R vm₀ F₀ s o F) (hadr : TABLE_VBASE.num ≤ adr / pageSize) :
    viewAt s.vm adr = o.toLayout.view (physMem vm₀) adr := by
  funext k
  refine Acpi.viewAt_eq h.shows.pages (hadr.trans (Nat.div_le_div_right (Nat.le_add_right _ _))) ?_
  intro n hn
  refine physMem_congr fun f hf => h.shows.keeps f ?_
  have hfn : f.num = n := by
    simp only [pageSize] at hf
    omega
  rw [hfn]
  exact h.reserved _ n hn

variable {devices : PhysFrame → IoApicRegisterMap} {turns : ℕ}
  (hR : Reserved R vm₀ F₀) (hfresh : Disjoint F₀ vm₀.tables)
include hR hfresh

end Operations

/-! ## The walk follows the plan -/

section Walk

variable {R : ℕ → Prop} [DecidablePred R] {vm₀ : Vm} {F₀ M : Set PhysFrame}
  {turns depth head index n : ℕ}
  {devices : PhysFrame → IoApicRegisterMap} {o : Outline}

variable (hR : Reserved R vm₀ F₀) (hfresh : Disjoint F₀ vm₀.tables)
include hR hfresh

variable (hstart : ∀ i n, tableFrame vm₀ i = some n → R n)
include hstart

end Walk

end HeliumOS.Acpi
