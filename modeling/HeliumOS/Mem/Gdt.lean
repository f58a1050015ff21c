import HeliumOS.Mem.Alloc

/-!
# Descriptor Tables

`mem/gdt.rs`: the descriptor table that a core registers, with the parts of the `x86_64` crate that
number its segments, and the tables that have a slot for each core.

- `register_selectors`: every core gets the same selectors, whatever its stacks are.
-/

namespace HeliumOS.Mem

open HeliumOS.Mem.Virt

/-- `Descriptor`: a segment takes one entry of the table, a system segment two. -/
inductive Descriptor where
  | userSegment (value : BitVec 64)
  | systemSegment (low high : BitVec 64)
  deriving DecidableEq, Repr

namespace Descriptor

/-- `Descriptor::kernel_code_segment`. -/
def kernelCodeSegment : Descriptor := .userSegment 0x00af9b000000ffff

/-- `Descriptor::kernel_data_segment`. -/
def kernelDataSegment : Descriptor := .userSegment 0x00cf93000000ffff

/-- `Descriptor::user_data_segment`. -/
def userDataSegment : Descriptor := .userSegment 0x00cff3000000ffff

/-- `Descriptor::user_code_segment`. -/
def userCodeSegment : Descriptor := .userSegment 0x00affb000000ffff

/-- `Descriptor::tss_segment`: present, of type "available TSS", with the base in three parts and
the size of the segment as its limit. -/
def tssSegment (tss : BitVec 64) : Descriptor :=
  .systemSegment
    ((1 <<< 47) ||| ((tss &&& 0xffffff) <<< 16) ||| (((tss >>> 24) &&& 0xff) <<< 56) ||| 103 |||
      (0b1001 <<< 40))
    (tss >>> 32)

/-- The first word of a descriptor. -/
def low : Descriptor → BitVec 64
  | .userSegment value => value
  | .systemSegment low _ => low

/-- `Descriptor::dpl`: bits 45 and 46. -/
def dpl (d : Descriptor) : BitVec 16 := ((d.low >>> 45) &&& 3).setWidth 16

end Descriptor

/-- `GlobalDescriptorTable`: the entries in use, of at most eight. -/
structure GlobalDescriptorTable where
  table : List (BitVec 64)
  le : table.length ≤ 8

namespace GlobalDescriptorTable

/-- `GlobalDescriptorTable::new`: the null descriptor. -/
def new : GlobalDescriptorTable := ⟨[0], by decide⟩

/-- `GlobalDescriptorTable::append`. -/
def append (gdt : GlobalDescriptorTable) (d : Descriptor) :
    Except Panic (BitVec 16 × GlobalDescriptorTable) :=
  let words := match d with
    | .userSegment value => [value]
    | .systemSegment low high => [low, high]
  if h : (gdt.table ++ words).length ≤ 8 then
    -- `SegmentSelector::new`
    .ok ((BitVec.ofNat 16 gdt.table.length <<< 3) ||| d.dpl, ⟨gdt.table ++ words, h⟩)
  else .error .gdtFull

end GlobalDescriptorTable

/-- `TaskStateSegment`: the stacks that are set. -/
structure TaskStateSegment where
  privilegeStack0 : BitVec 64
  interruptStack0 : BitVec 64
  interruptStack1 : BitVec 64
  deriving DecidableEq, Repr

/-- `KernelGlobalDescriptorTable`. -/
structure KernelGlobalDescriptorTable where
  gdt : GlobalDescriptorTable
  kcodeSeg : BitVec 16
  kdataSeg : BitVec 16
  ucodeSeg : BitVec 16
  udataSeg : BitVec 16
  tssSeg : BitVec 16

/-- `KernelGlobalDescriptorTable::register`: the task state segment and the table of a core whose
task state segment is at the address given.  Loading them and the pixels drawn are left out. -/
def KernelGlobalDescriptorTable.register (tssAdr kstack nmistack dfstack : BitVec 64) :
    Except Panic (TaskStateSegment × KernelGlobalDescriptorTable) := do
  let (kcodeSeg, gdt) ← GlobalDescriptorTable.new.append .kernelCodeSegment
  let (kdataSeg, gdt) ← gdt.append .kernelDataSegment
  let (udataSeg, gdt) ← gdt.append .userDataSegment
  let (ucodeSeg, gdt) ← gdt.append .userCodeSegment
  let (tssSeg, gdt) ← gdt.append (.tssSegment tssAdr)
  return (⟨kstack, nmistack, dfstack⟩, ⟨gdt, kcodeSeg, kdataSeg, ucodeSeg, udataSeg, tssSeg⟩)

/-- The table has room for all descriptors, and the selectors do not depend on the core. -/
theorem register_selectors (tssAdr kstack nmistack dfstack : BitVec 64) :
    ∃ kgdt, KernelGlobalDescriptorTable.register tssAdr kstack nmistack dfstack =
        .ok (⟨kstack, nmistack, dfstack⟩, kgdt) ∧
      kgdt.kcodeSeg = 0x08 ∧ kgdt.kdataSeg = 0x10 ∧ kgdt.udataSeg = 0x1b ∧ kgdt.ucodeSeg = 0x23 :=
  ⟨_, rfl, rfl, rfl, rfl, rfl⟩

/-! ## The tables of all cores -/

/-- The page of `GDT_TABLE_PTR`, 5 TiB into the kernel half. -/
def GDT_TABLE_PTR : Page := ⟨kvmspace.num + 5 * 1024 * 1024 * 1024 * 1024 / pageSize, by decide⟩

/-- The page of `TSS_TABLE_PTR`, 7 TiB into the kernel half. -/
def TSS_TABLE_PTR : Page := ⟨kvmspace.num + 7 * 1024 * 1024 * 1024 * 1024 / pageSize, by decide⟩

/-- `mem::size_of::<TaskStateSegment>()`. -/
def TaskStateSegment.byteSize : ℕ := 104

namespace KernelGlobalDescriptorTable

/-- `mem::size_of::<KernelGlobalDescriptorTable>()`: eight entries, their number, five selectors,
and padding. -/
def byteSize : ℕ := 88

/-- `KernelGlobalDescriptorTable::init`. -/
def init (numcores : ℕ) (vm : Vm) : Kernel Vm := do
  let vm ← vallocKtable vm GDT_TABLE_PTR numcores byteSize
  vallocKtable vm TSS_TABLE_PTR numcores TaskStateSegment.byteSize

/-- `KernelGlobalDescriptorTable::entry`, as an address. -/
def entry (id : ℕ) : ℕ := GDT_TABLE_PTR.startAddress + byteSize * id

/-- `KernelGlobalDescriptorTable::tss`, as an address. -/
def tss (id : ℕ) : ℕ := TSS_TABLE_PTR.startAddress + TaskStateSegment.byteSize * id

end KernelGlobalDescriptorTable

end HeliumOS.Mem
