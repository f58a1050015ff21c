import HeliumOS.Acpi.Tables
import HeliumOS.Mem.Alloc

/-!
# Interrupt Controllers

`proc/apic/mod.rs`: what the kernel keeps of the MADT.

- `handleEntry` is the treatment of one entry, `acpiHandler` the whole handler.
- `acpiHandler_numcores`: `NUMCORES` counts the `LocalApic` entries, whether enabled or not.
-/

namespace HeliumOS.Acpi

open HeliumOS.Lib

/-- The entry is about a core. -/
def MadtEntry.isLocalApic : MadtEntry → Bool
  | .localApic _ => true
  | _ => false

/-- The record is about a core. -/
def MadtRecord.isLocalApic : MadtRecord → Bool
  | .localApic .. => true
  | _ => false

theorem MadtRecord.isLocalApic_decoded (r : MadtRecord) :
    r.decoded.isLocalApic = r.isLocalApic := by cases r <;> rfl

end HeliumOS.Acpi

namespace HeliumOS.Proc

open HeliumOS.Lib HeliumOS.Lib.AllocProg HeliumOS.Mem HeliumOS.Mem.Virt HeliumOS.Acpi

/-! ## Definitions -/

/-- `LocalApicNmiConfig`. -/
inductive LocalApicNmiConfig where
  | all (lint : ℕ) (flags : BitVec 16)
  | specific (id lint : ℕ) (flags : BitVec 16)
  deriving DecidableEq, Repr

/-- `LocalApicNmiConfig::from`. -/
def LocalApicNmiConfig.«from» (entry : MadtEntryLocalApicNmi) : LocalApicNmiConfig :=
  if entry.id = 0xFF then .all entry.lint.toNat entry.flags
  else .specific entry.id.toNat entry.lint.toNat entry.flags

/-- The registers of an I/O APIC, by offset. -/
structure IoApicRegisterMap where
  read : BitVec 32 → BitVec 32

/-- `IoApicRegisterMap::maxredent`. -/
def IoApicRegisterMap.maxredent (regmap : IoApicRegisterMap) : ℕ :=
  ((regmap.read 1 >>> 16) &&& 0xFF).toNat

/-- Machines without I/O APICs. -/
def noDevices : PhysFrame → IoApicRegisterMap := fun _ => ⟨fun _ => 0⟩

/-- `IoApicInfo`, with the page at which the registers are mapped. -/
structure IoApicInfo where
  regmap : Page
  id : ℕ
  irqBase : ℕ
  len : ℕ
  deriving DecidableEq

/-- The statics of `proc/apic`, and virtual memory. -/
structure ApicState where
  numcores : ℕ
  ioapic : List IoApicInfo
  ioapicRedirection : IoApicRedirectionSource → Option ℕ
  apicConfig : List LocalApicNmiConfig
  vm : Vm

/-- The page of `VBASE`, 1 TiB and 513 GiB into the kernel half. -/
def VBASE : Page :=
  ⟨kvmspace.num + (1024 * 1024 * 1024 * 1024 + 513 * 1024 * 1024 * 1024) / pageSize, by decide⟩

section Handler

-- the I/O APIC at each frame
variable (devices : PhysFrame → IoApicRegisterMap)

/-- `IoApicInfo::new`. -/
def IoApicInfo.new (entry : MadtEntryIoApic) (vadr : Page) (vm : Vm) :
    Kernel (IoApicInfo × Vm) := do
  -- `PhysFrame::from_start_address(..).unwrap()`
  let frame ← frameContaining entry.ioapicAdr.toNat
  ensure Panic.ioapicAddress (frame.startAddress = entry.ioapicAdr.toNat)
  let vm ← vmapExpect .ioapicMap vm vadr frame pageSize .empty
  let len := (devices frame).maxredent + 1
  return (⟨vadr, entry.ioapicid.toNat, entry.gsib.toNat, len⟩, vm)

/-- `register_apic_config`. -/
def registerApicConfig (config : MadtEntryLocalApicNmi) (s : ApicState) : ApicState :=
  { s with apicConfig := s.apicConfig ++ [.from config] }

/-- `register_ioapic`. -/
def registerIoapic (ioapic : MadtEntryIoApic) (s : ApicState) : Kernel ApicState := do
  let vadr ← VBASE.add s.ioapic.length
  let (info, vm) ← IoApicInfo.new devices ioapic vadr s.vm
  return { s with ioapic := s.ioapic ++ [info], vm := vm }

/-- `register_ioapic_redirection`. -/
def registerIoapicRedirection (iso : MadtEntryIoApicInterruptSourceOverride) (s : ApicState) :
    ApicState :=
  { s with ioapicRedirection := Function.update s.ioapicRedirection iso.source iso.destination }

/-- The body of the loop of `acpi_handler`.  Printing is left out. -/
def handleEntry (entry : MadtEntry) (s : ApicState) : Kernel ApicState :=
  match entry with
  | .localApic _ => do
    let numcores ← checkedAdd 64 Panic.numcoresOverflow s.numcores 1
    return { s with numcores := numcores }
  | .ioApic ioapic => registerIoapic devices ioapic s
  | .ioApicInterruptSourceOverride iso => return registerIoapicRedirection iso s
  | .localApicNmi config => return registerApicConfig config s
  | .other _ => return s

/-- `acpi_handler`, for the given number of turns of its loop.  The table is read through a
reference, whose bytes depend on virtual memory. -/
def acpiHandler (turns : ℕ) (table : Vm → View) (s : ApicState) : Kernel (Option ApicState) := do
  let madt ← Madt.from (table s.vm)
  forEach (fun s => MadtIterator.nextIn (table s.vm)) (handleEntry devices) turns madt.iter.cursor s

end Handler

/-! ## One I/O APIC -/

section Ioapic

variable {devices : PhysFrame → IoApicRegisterMap} {M F F' : Set PhysFrame} {s s' : ApicState}
  {ioapic : MadtEntryIoApic}

theorem returns_registerIoapic (h : Returns M (registerIoapic devices ioapic s) F s' F') :
    ∃ page frame, VBASE.add s.ioapic.length = .ok page ∧ ioapic.ioapicAdr.toNat % pageSize = 0 ∧
      Returns M (vmapExpect .ioapicMap s.vm page frame pageSize .empty) F s'.vm F' ∧
      s'.numcores = s.numcores ∧ s'.ioapic.length = s.ioapic.length + 1 := by
  simp only [registerIoapic, IoApicInfo.new, returns_bind, returns_lift, ensure_eq_ok,
    returns_pure] at h
  obtain ⟨page, _, ⟨hpage, rfl⟩, _, _,
    ⟨frame, _, ⟨-, rfl⟩, _, _, ⟨hstart, rfl⟩, vm, _, hmap, rfl, rfl⟩, rfl, rfl⟩ := h
  refine ⟨page, frame, hpage, ?_, hmap, rfl, by simp⟩
  rw [← hstart, PhysFrame.startAddress, Nat.mul_mod_left]

end Ioapic

/-! ## The number of cores -/

section Numcores

variable {devices : PhysFrame → IoApicRegisterMap} {M F F' : Set PhysFrame} {s s' : ApicState}

theorem registerIoapic_numcores {ioapic : MadtEntryIoApic}
    (h : Returns M (registerIoapic devices ioapic s) F s' F') : s'.numcores = s.numcores := by
  obtain ⟨_, _, -, -, -, hnumcores, -⟩ := returns_registerIoapic h
  exact hnumcores

/-- One turn of the loop counts one core, if the entry is about one. -/
theorem handleEntry_numcores {entry : MadtEntry}
    (h : Returns M (handleEntry devices entry s) F s' F') :
    s'.numcores = s.numcores + entry.isLocalApic.toNat := by
  cases entry with
  | localApic e =>
    simp only [handleEntry, returns_bind, returns_lift, checkedAdd_eq_ok] at h
    obtain ⟨_, _, ⟨⟨-, rfl⟩, -⟩, hret⟩ := h
    obtain ⟨rfl, -⟩ := returns_pure.mp hret
    rfl
  | ioApic e => exact registerIoapic_numcores h
  | ioApicInterruptSourceOverride e | localApicNmi e | other e =>
    obtain ⟨rfl, -⟩ := returns_pure.mp h
    rfl

theorem handleEntries_numcores {entries : List MadtEntry}
    (h : Returns M (entries.foldlM (fun s entry => handleEntry devices entry s) s) F s' F') :
    s'.numcores = s.numcores + entries.countP MadtEntry.isLocalApic := by
  induction entries generalizing s F with
  | nil => exact congrArg ApicState.numcores (returns_pure.mp h).1
  | cons entry entries ih =>
    rw [List.foldlM_cons, returns_bind] at h
    obtain ⟨s₁, F₁, hentry, hrest⟩ := h
    rw [ih hrest, handleEntry_numcores hentry, List.countP_cons, Nat.add_assoc,
      Nat.add_comm entry.isLocalApic.toNat]
    cases entry.isLocalApic <;> rfl

section Table

variable {table : ByteMemory} {rs : List MadtRecord} {turns : ℕ} {r : Option ApicState}

/-- The handler treats the records of its table one by one. -/
theorem returns_acpiHandler (hholds : (Madt.mk table).Holds rs) (hturns : rs.length < turns) :
    Returns M (acpiHandler devices turns (fun _ => .ofMemory table) s) F r F' ↔
      Madt.from (.ofMemory table) = .ok ⟨table⟩ ∧ ∃ s', r = some s' ∧
        Returns M
        ((rs.map MadtRecord.decoded).foldlM (fun s entry => handleEntry devices entry s) s)
          F s' F' := by
  have hlength : (rs.map MadtRecord.decoded).length < turns := by rwa [List.length_map]
  have hyields := MadtIterator.yields_nextIn hholds.yields rfl
  simp only [acpiHandler, returns_bind, returns_lift]
  constructor
  · rintro ⟨madt, _, ⟨hmadt, rfl⟩, hloop⟩
    obtain rfl := (Madt.from_ofMemory_eq_ok.mp hmadt).2
    exact ⟨hmadt, (returns_forEach hyields hlength).mp hloop⟩
  · rintro ⟨hmadt, hentries⟩
    exact ⟨_, _, ⟨hmadt, rfl⟩, (returns_forEach hyields hlength).mpr hentries⟩

/-- `NUMCORES` is the number of `LocalApic` entries, whether the cores are enabled or not. -/
theorem acpiHandler_numcores (hholds : (Madt.mk table).Holds rs) (hturns : rs.length < turns)
    (h : Returns M (acpiHandler devices turns (fun _ => .ofMemory table) s) F r F') :
    ∃ s', r = some s' ∧ s'.numcores = s.numcores + rs.countP MadtRecord.isLocalApic := by
  obtain ⟨-, s', rfl, hentries⟩ := (returns_acpiHandler hholds hturns).mp h
  refine ⟨s', rfl, ?_⟩
  rw [handleEntries_numcores hentries, List.countP_map]
  congr 2
  exact funext MadtRecord.isLocalApic_decoded

end Table

end Numcores

end HeliumOS.Proc
