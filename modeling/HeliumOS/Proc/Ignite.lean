import HeliumOS.Mem.Gdt
import HeliumOS.Proc.Apic
import HeliumOS.Proc.Task
import Mathlib.Order.Interval.Set.Disjoint

/-!
# The Areas of the Cores

The tables that `ignite` of `proc/mod.rs` allocates before the other cores wake up.  They are sized
by `NUMCORES`, and a core finds its slot by its APIC identifier.

- `ignite_allocates`: the pages of all tables are mapped.
- `core_slots_iff`: the slots of a core exist exactly if its identifier is below `NUMCORES`.
- `core_areas_disjoint_iff`: the table of task state segments and the NMI stacks have the same
  address, and share bytes; all other areas are apart.
-/

namespace HeliumOS.Proc

open HeliumOS.Lib HeliumOS.Lib.AllocProg HeliumOS.Mem HeliumOS.Mem.Virt HeliumOS.Acpi

/-! ## Definitions -/

/-- `ERROR_STACK_SIZE`. -/
def ERROR_STACK_SIZE : ℕ := 8 * 1024

/-- The page of `STACK_TABLE_VPTR`, 4 TiB into the kernel half. -/
def STACK_TABLE_VPTR : Page := ⟨kvmspace.num + 4 * 1024 * 1024 * 1024 * 1024 / pageSize, by decide⟩

/-- The page of `NMI_STACKS_VPTR`, 7 TiB into the kernel half. -/
def NMI_STACKS_VPTR : Page :=
  ⟨kvmspace.num + 7 * 1024 * 1024 * 1024 * 1024 / pageSize, TSS_TABLE_PTR.canonical⟩

/-- The page of `DF_STACKS_VPTR`, 8 TiB into the kernel half. -/
def DF_STACKS_VPTR : Page := ⟨kvmspace.num + 8 * 1024 * 1024 * 1024 * 1024 / pageSize, by decide⟩

/-- `mem::size_of::<VirtAddr>()`. -/
def virtAddrSize : ℕ := 8

namespace ProcInfo

/-- `ProcInfo::stack`, as an address. -/
def stack (id : ℕ) : ℕ := STACK_TABLE_VPTR.startAddress + virtAddrSize * id

/-- `ProcInfo::nmi_stack`: stacks grow down, so that this is the end of the area. -/
def nmiStack (id : ℕ) : ℕ := NMI_STACKS_VPTR.startAddress + ERROR_STACK_SIZE * (id + 1)

/-- `ProcInfo::df_stack`. -/
def dfStack (id : ℕ) : ℕ := DF_STACKS_VPTR.startAddress + ERROR_STACK_SIZE * (id + 1)

end ProcInfo

/-- The allocations of `ignite`. -/
def ignite (numcores : ℕ) (vm : Vm) : Kernel Vm := do
  let vm ← vallocKtable vm STACK_TABLE_VPTR numcores virtAddrSize
  let vm ← KernelGlobalDescriptorTable.init numcores vm
  let vm ← vallocKtable vm NMI_STACKS_VPTR numcores ERROR_STACK_SIZE
  vallocKtable vm DF_STACKS_VPTR numcores ERROR_STACK_SIZE

/-! ## The tables -/

/-- The tables that have a slot for each core. -/
inductive KTable where
  | stack | gdt | tss | nmi | df
  deriving DecidableEq

namespace KTable

def base : KTable → Page
  | .stack => STACK_TABLE_VPTR
  | .gdt => GDT_TABLE_PTR
  | .tss => TSS_TABLE_PTR
  | .nmi => NMI_STACKS_VPTR
  | .df => DF_STACKS_VPTR

/-- The size of a slot. -/
def size : KTable → ℕ
  | .stack => virtAddrSize
  | .gdt => KernelGlobalDescriptorTable.byteSize
  | .tss => TaskStateSegment.byteSize
  | .nmi | .df => ERROR_STACK_SIZE

/-- The pages that `ignite` maps for the table. -/
def pages (t : KTable) (n : ℕ) : Set Page := ktablePages t.base n t.size

/-- The bytes on these pages. -/
def mapped (t : KTable) (n : ℕ) : Set ℕ :=
  {a | ∃ q ∈ t.pages n, a ∈ Set.Ico q.startAddress (q.startAddress + pageSize)}

/-- The bytes that a core uses in the table. -/
def area : KTable → ℕ → Set ℕ
  | .stack, id => Set.Ico (ProcInfo.stack id) (ProcInfo.stack id + virtAddrSize)
  | .gdt, id => Set.Ico (KernelGlobalDescriptorTable.entry id)
      (KernelGlobalDescriptorTable.entry id + KernelGlobalDescriptorTable.byteSize)
  | .tss, id => Set.Ico (KernelGlobalDescriptorTable.tss id)
      (KernelGlobalDescriptorTable.tss id + TaskStateSegment.byteSize)
  | .nmi, id => Set.Ico (ProcInfo.nmiStack id - ERROR_STACK_SIZE) (ProcInfo.nmiStack id)
  | .df, id => Set.Ico (ProcInfo.dfStack id - ERROR_STACK_SIZE) (ProcInfo.dfStack id)

/-- In all tables the areas follow each other without gaps. -/
theorem area_eq (t : KTable) (id : ℕ) :
    t.area id =
      Set.Ico (t.base.startAddress + t.size * id) (t.base.startAddress + t.size * (id + 1)) := by
  cases t with
  | stack | gdt | tss => rw [Nat.mul_succ, ← Nat.add_assoc]; rfl
  | nmi => rw [Nat.mul_succ, ← Nat.add_assoc, area, ProcInfo.nmiStack, Nat.mul_succ,
      ← Nat.add_assoc, Nat.add_sub_cancel]; rfl
  | df => rw [Nat.mul_succ, ← Nat.add_assoc, area, ProcInfo.dfStack, Nat.mul_succ,
      ← Nat.add_assoc, Nat.add_sub_cancel]; rfl

theorem base_bounds (t : KTable) :
    kvmspace.num ≤ t.base.num ∧ t.base.num * pageSize + t.size * 256 ≤ 2 ^ 64 := by
  cases t <;> decide

theorem mem_pages {t : KTable} {n : ℕ} {q : Page} :
    q ∈ t.pages n ↔ t.base.num ≤ q.num ∧
      q.num < t.base.num + alignUp (n * t.size) pageSize / pageSize := by
  rw [pages, ktablePages, mem_visited, Nat.add_zero]

end KTable

section Ignite

variable {M F F' : Set PhysFrame} {vm vm' : Vm} {n : ℕ}

/-- What `ignite` leaves behind: all pages of all tables are mapped, each to a frame that was
free. -/
theorem ignite_allocates (hinv : vm.Inv) (hfresh : Disjoint F vm.tables)
    (h : Returns M (ignite n vm) F vm' F') :
    Allocates vm vm' F F' .WRITABLE (⋃ t : KTable, t.pages n) := by
  simp only [ignite, KernelGlobalDescriptorTable.init, returns_bind] at h
  obtain ⟨vm₁, F₁, hstack, vm₃, F₃, ⟨vm₂, F₂, hgdt, htss⟩, vm₄, F₄, hnmi, hdf⟩ := h
  -- the five tables in the order in which they are allocated
  have h₁ := vallocKtable_allocates hinv hfresh hstack
  have hfresh₁ := h₁.evolves.fresh hfresh
  have h₂ := h₁.trans (vallocKtable_allocates h₁.evolves.inv hfresh₁ hgdt)
  have hfresh₂ := h₂.evolves.fresh hfresh
  have h₃ := h₂.trans (vallocKtable_allocates h₂.evolves.inv hfresh₂ htss)
  have hfresh₃ := h₃.evolves.fresh hfresh
  have h₄ := h₃.trans (vallocKtable_allocates h₃.evolves.inv hfresh₃ hnmi)
  have hfresh₄ := h₄.evolves.fresh hfresh
  have h₅ := h₄.trans (vallocKtable_allocates h₄.evolves.inv hfresh₄ hdf)
  convert h₅ using 1
  ext q
  simp only [Set.mem_iUnion, Set.mem_union]
  constructor
  · rintro ⟨t, ht⟩
    cases t with
    | stack => exact .inl (.inl (.inl (.inl ht)))
    | gdt => exact .inl (.inl (.inl (.inr ht)))
    | tss => exact .inl (.inl (.inr ht))
    | nmi => exact .inl (.inr ht)
    | df => exact .inr ht
  · rintro ((((ht | ht) | ht) | ht) | ht)
    exacts [⟨.stack, ht⟩, ⟨.gdt, ht⟩, ⟨.tss, ht⟩, ⟨.nmi, ht⟩, ⟨.df, ht⟩]

end Ignite

/-! ## Slots by APIC identifier -/

section Slots

variable {n id : ℕ}

/-- The slot of a core that was counted. -/
theorem KTable.area_subset_mapped (t : KTable) (hid : id < n) (hid' : id < 256) :
    t.area id ⊆ t.mapped n := by
  rw [t.area_eq]
  rintro a ⟨hstart, hend⟩
  have hcounted : t.size * (id + 1) ≤ n * t.size := by
    rw [Nat.mul_comm n]
    exact Nat.mul_le_mul_left _ hid
  have hlow : t.size * (id + 1) ≤ t.size * 256 := Nat.mul_le_mul_left _ hid'
  have hup : n * t.size ≤ alignUp (n * t.size) pageSize := le_alignUp (by decide)
  obtain ⟨k, hk⟩ := dvd_alignUp (n * t.size) pageSize
  obtain ⟨hkernel, htop⟩ := t.base_bounds
  simp only [Page.startAddress, pageSize] at hstart hend
  simp only [pageSize] at hup hk
  refine ⟨⟨a / pageSize, ?_⟩, mem_pages.mpr ?_, ?_⟩
  · simp only [kvmspace, pageSize] at hkernel htop ⊢
    omega
  · simp only [pageSize, hk]
    omega
  · simp only [Set.mem_Ico, Page.startAddress, pageSize]
    omega

/-- The stacks fill their pages, so that one behind the last is on none of them. -/
theorem lt_of_nmi_subset (h : KTable.nmi.area id ⊆ KTable.nmi.mapped n) : id < n := by
  rw [KTable.area_eq] at h
  have hpos : KTable.nmi.size * id < KTable.nmi.size * (id + 1) :=
    Nat.mul_lt_mul_of_pos_left id.lt_succ_self (by decide)
  obtain ⟨q, hq, hstart, hend⟩ := h ⟨le_rfl, Nat.add_lt_add_left hpos _⟩
  have hfull : alignUp (n * KTable.nmi.size) pageSize = n * KTable.nmi.size :=
    alignUp_of_dvd (by decide) (Dvd.dvd.mul_left (by decide) n)
  rw [KTable.mem_pages, hfull] at hq
  simp only [Page.startAddress, KTable.size, ERROR_STACK_SIZE, pageSize] at hq hstart hend
  omega

/-- **When the slots of a core exist.**  The handler counts the `LocalApic` entries.  The slots of a
core, enabled or not, lie on the pages mapped for that many entries exactly if its APIC identifier
is smaller than their number. -/
theorem core_slots_iff {M F F' : Set PhysFrame} {devices : PhysFrame → IoApicRegisterMap}
    {table : ByteMemory} {rs : List MadtRecord} (hholds : (Madt.mk table).Holds rs) {turns : ℕ}
    (hturns : rs.length < turns) {s : ApicState} (hstart : s.numcores = 0) {r : Option ApicState}
    (h : Returns M (acpiHandler devices turns (fun _ => .ofMemory table) s) F r F') :
    ∃ s', r = some s' ∧ s'.numcores = rs.countP MadtRecord.isLocalApic ∧
      ∀ uid apicId flags, MadtRecord.localApic uid apicId flags ∈ rs →
        ((∀ t : KTable, t.area apicId.toNat ⊆ t.mapped s'.numcores) ↔
          apicId.toNat < s'.numcores) := by
  obtain ⟨s', rfl, hcount⟩ := acpiHandler_numcores hholds hturns h
  rw [hstart, Nat.zero_add] at hcount
  refine ⟨s', rfl, hcount, fun uid apicId flags _ => ⟨fun hslots => ?_, fun hlt t => ?_⟩⟩
  · exact lt_of_nmi_subset (hslots .nmi)
  · exact t.area_subset_mapped hlt apicId.isLt

end Slots

/-- A table with the given records that `Madt::from` accepts, if the last byte is right. -/
def madtImage (rs : List MadtRecord) (checksum : BitVec 8) : ByteMemory :=
  ((tableOf rs).mem.write 0 [0x41, 0x50, 0x49, 0x43]).write 9 [checksum]

theorem madtImage_holds {rs : List MadtRecord} (checksum : BitVec 8)
    (h : Madt.byteSize + (rs.flatMap MadtRecord.encode).length < 2 ^ 32) :
    (Madt.mk (madtImage rs checksum)).Holds rs where
  len := by
    have hload : (madtImage rs checksum).load 32 4 = (tableOf rs).mem.load 32 4 := by
      rw [ByteMemory.load, madtImage, ByteMemory.slice_write_of_apart (.inr (by decide)),
        ByteMemory.slice_write_of_apart (.inl (by decide)), ← ByteMemory.load]
    rw [Madt.len, hload]
    exact (tableOf_holds h).len
  body := by
    rw [madtImage, ByteMemory.slice_write_of_apart (.inl (by simp [Madt.byteSize])),
      ByteMemory.slice_write_of_apart (.inl (by simp [Madt.byteSize]))]
    exact (tableOf_holds h).body

/-- The state before the table is read. -/
def apicStart : ApicState := ⟨0, [], fun _ => none, [], freshVm⟩

/-- One core, with the identifier 0. -/
def oneCore : List MadtRecord := [.localApic 0 0 1]

theorem core_slots_oneCore : (Madt.mk (madtImage oneCore 0xA6)).Holds oneCore ∧
    Returns ∅ (acpiHandler noDevices 2 (fun _ => .ofMemory (madtImage oneCore 0xA6)) apicStart) ∅
      (some { apicStart with numcores := 1 }) ∅ ∧
    KTable.nmi.area 0 ⊆ KTable.nmi.mapped 1 := by
  have hholds : (Madt.mk (madtImage oneCore 0xA6)).Holds oneCore := madtImage_holds _ (by decide)
  have hfrom : Madt.from (.ofMemory (madtImage oneCore 0xA6)) = .ok ⟨madtImage oneCore 0xA6⟩ :=
    Madt.from_ofMemory_eq_ok.mpr ⟨by decide +kernel, rfl⟩
  have hrun : Returns ∅ (acpiHandler noDevices 2 (fun _ => .ofMemory (madtImage oneCore 0xA6))
      apicStart) ∅
      (some { apicStart with numcores := 1 }) ∅ := by
    refine (returns_acpiHandler hholds (by decide)).mpr ⟨hfrom, _, rfl, ?_⟩
    simp [oneCore, MadtRecord.decoded, MadtRecord.entry, handleEntry, checkedAdd, apicStart]
  refine ⟨hholds, hrun, ?_⟩
  obtain ⟨s', hs', -, hslots⟩ := core_slots_iff hholds (by decide) rfl hrun
  obtain rfl := Option.some.inj hs'
  exact (hslots 0 0 1 (by simp [oneCore])).mpr (by decide) .nmi

/-- Two cores, with the identifiers 0 and 2. -/
def gappedCores : List MadtRecord := [.localApic 0 0 1, .localApic 1 2 1]

/-- The handler counts two cores, and the NMI stack of core 2 is behind the pages for two. -/
theorem gappedCores_no_stack : (Madt.mk (madtImage gappedCores 0x92)).Holds gappedCores ∧
    Returns ∅ (acpiHandler noDevices 3 (fun _ => .ofMemory (madtImage gappedCores 0x92))
      apicStart) ∅
      (some { apicStart with numcores := 2 }) ∅ ∧
    ¬ KTable.nmi.area 2 ⊆ KTable.nmi.mapped 2 := by
  have hholds : (Madt.mk (madtImage gappedCores 0x92)).Holds gappedCores :=
    madtImage_holds _ (by decide)
  have hfrom : Madt.from (.ofMemory (madtImage gappedCores 0x92)) =
      .ok ⟨madtImage gappedCores 0x92⟩ :=
    Madt.from_ofMemory_eq_ok.mpr ⟨by decide +kernel, rfl⟩
  refine ⟨hholds, ?_, fun hsubset => absurd (lt_of_nmi_subset hsubset) (by decide)⟩
  refine (returns_acpiHandler hholds (by decide)).mpr ⟨hfrom, _, rfl, ?_⟩
  simp [gappedCores, MadtRecord.decoded, MadtRecord.entry, handleEntry, checkedAdd, apicStart]

/-! ## Overlaps -/

/-- What a core has for itself: a slot in each table, and the window to load tasks through. -/
inductive CoreArea where
  | table (t : KTable)
  | window
  deriving DecidableEq

namespace CoreArea

/-- The first address of all cores. -/
def base : CoreArea → ℕ
  | .table t => t.base.startAddress
  | .window => TMP_TASKLDMAP.startAddress

def size : CoreArea → ℕ
  | .table t => t.size
  | .window => TMP_TASK_SIZE_PER_PROC

/-- The bytes of a core. -/
def area : CoreArea → ℕ → Set ℕ
  | .table t, id => t.area id
  | .window, id => Set.Ico (TMP_TASKLDMAP.startAddress + TMP_TASK_SIZE_PER_PROC * id)
      (TMP_TASKLDMAP.startAddress + TMP_TASK_SIZE_PER_PROC * (id + 1))

theorem area_eq (f : CoreArea) (id : ℕ) :
    f.area id = Set.Ico (f.base + f.size * id) (f.base + f.size * (id + 1)) := by
  cases f with
  | table t => exact t.area_eq id
  | window => rfl

/-- The window is the one that `tmp_local_reserve` maps into. -/
theorem window_area_of_tmpStartPage {id : ℕ} {page : Page} (h : tmpStartPage id = .ok page) :
    window.area id =
      Set.Ico page.startAddress (page.startAddress + TMP_TASK_SIZE_PER_PROC) := by
  simp only [tmpStartPage, except_bind_eq_ok, checkedMul_eq_ok] at h
  obtain ⟨_, ⟨-, rfl⟩, hadd⟩ := h
  rw [Page.add_eq_ok] at hadd
  have hdvd : id * TMP_TASK_SIZE_PER_PROC / pageSize * pageSize = id * TMP_TASK_SIZE_PER_PROC :=
    Nat.div_mul_cancel (Dvd.dvd.mul_left (by decide) id)
  have hstart : page.startAddress =
      TMP_TASKLDMAP.startAddress + TMP_TASK_SIZE_PER_PROC * id := by
    rw [Page.startAddress, hadd, Nat.add_mul, hdvd, Nat.mul_comm id]
    rfl
  rw [hstart, Nat.add_assoc, ← Nat.mul_succ]
  rfl

/-- The areas of 128 cores. -/
theorem area_subset (f : CoreArea) {id : ℕ} (hid : id < 128) :
    f.area id ⊆ Set.Ico f.base (f.base + f.size * 128) := by
  rw [f.area_eq]
  refine Set.Ico_subset_Ico (Nat.le_add_right _ _) ?_
  exact Nat.add_le_add_left (Nat.mul_le_mul_left _ hid) _

/-- Two cores do not share an area of one kind. -/
theorem area_disjoint_of_ne (f : CoreArea) {i j : ℕ} (hij : i ≠ j) :
    Disjoint (f.area i) (f.area j) := by
  wlog hlt : i < j generalizing i j
  · exact (this hij.symm (by omega)).symm
  rw [f.area_eq, f.area_eq, Set.Ico_disjoint_Ico]
  have hle : f.size * (i + 1) ≤ f.size * j := Nat.mul_le_mul_left _ hlt
  exact min_le_of_left_le (le_max_of_le_right (Nat.add_le_add_left hle _))

/-- The two kinds of areas with one address. -/
def SameBase (f g : CoreArea) : Prop :=
  f = .table .tss ∧ g = .table .nmi ∨ f = .table .nmi ∧ g = .table .tss

instance (f g : CoreArea) : Decidable (SameBase f g) := inferInstanceAs (Decidable (_ ∨ _))

/-- Every other two kinds are so far apart that 128 cores have room. -/
theorem zones_apart {f g : CoreArea} (hne : f ≠ g) (hbase : ¬ SameBase f g) :
    f.base + f.size * 128 ≤ g.base ∨ g.base + g.size * 128 ≤ f.base := by
  revert hne hbase
  rcases f with (_ | _ | _ | _ | _) | _ <;> rcases g with (_ | _ | _ | _ | _) | _ <;> decide

theorem area_disjoint_of_zones {f g : CoreArea} (hne : f ≠ g) (hbase : ¬ SameBase f g) {i j : ℕ}
    (hi : i < 128) (hj : j < 128) : Disjoint (f.area i) (g.area j) := by
  refine Set.disjoint_of_subset (f.area_subset hi) (g.area_subset hj) ?_
  rw [Set.Ico_disjoint_Ico]
  rcases zones_apart hne hbase with h | h
  · exact min_le_of_left_le (le_max_of_le_right h)
  · exact min_le_of_right_le (le_max_of_le_left h)

/-- A task state segment takes 104 bytes of the first two NMI stacks. -/
theorem tss_disjoint_nmi_iff {i j : ℕ} (hi : i < 128) :
    Disjoint ((table .tss).area i) ((table .nmi).area j) ↔
      ¬ (j = 0 ∧ i ≤ 78 ∨ j = 1 ∧ 78 ≤ i) := by
  have hbase : (table .nmi).base = (table .tss).base := by decide
  rw [area_eq, area_eq, Set.Ico_disjoint_Ico, hbase]
  simp only [size, KTable.size, TaskStateSegment.byteSize, ERROR_STACK_SIZE]
  omega

/-- The task state segment of core `i` lies in the NMI stack of core `j`. -/
def Clash (f : CoreArea) (i : ℕ) (g : CoreArea) (j : ℕ) : Prop :=
  f = .table .tss ∧ g = .table .nmi ∧ (j = 0 ∧ i ≤ 78 ∨ j = 1 ∧ 78 ≤ i)

theorem area_disjoint_iff {f g : CoreArea} {i j : ℕ} (hi : i < 128) (hj : j < 128)
    (hne : (f, i) ≠ (g, j)) :
    Disjoint (f.area i) (g.area j) ↔ ¬ (Clash f i g j ∨ Clash g j f i) := by
  by_cases hfg : f = g
  · subst hfg
    have hdisjoint : Disjoint (f.area i) (f.area j) :=
      f.area_disjoint_of_ne fun hij => hne (by rw [hij])
    refine iff_of_true hdisjoint ?_
    rintro (⟨rfl, h, -⟩ | ⟨rfl, h, -⟩) <;> cases h
  by_cases hbase : SameBase f g
  · rcases hbase with ⟨rfl, rfl⟩ | ⟨rfl, rfl⟩
    · simp [tss_disjoint_nmi_iff hi, Clash]
    · rw [disjoint_comm]
      simp [tss_disjoint_nmi_iff hj, Clash]
  · refine iff_of_true (area_disjoint_of_zones hfg hbase hi hj) ?_
    rintro (⟨hf, hg, -⟩ | ⟨hg, hf, -⟩)
    · exact hbase (.inl ⟨hf, hg⟩)
    · exact hbase (.inr ⟨hf, hg⟩)

end CoreArea

namespace KTable

theorem size_bounds (t : KTable) : 1 ≤ t.size ∧ t.size ≤ ERROR_STACK_SIZE := by
  cases t <;> decide

/-- A table has at least one page, and at most two for each core. -/
theorem pageCount_bounds (t : KTable) {n : ℕ} (hpos : 1 ≤ n) (hn : n ≤ 128) :
    1 ≤ alignUp (n * t.size) pageSize / pageSize ∧
      alignUp (n * t.size) pageSize / pageSize ≤ 256 := by
  obtain ⟨hlow, hhigh⟩ := t.size_bounds
  have hmin : 1 * 1 ≤ n * t.size := Nat.mul_le_mul hpos hlow
  have hmax : n * t.size ≤ 128 * ERROR_STACK_SIZE := Nat.mul_le_mul hn hhigh
  simp only [ERROR_STACK_SIZE] at hmax
  simp only [alignUp, pageSize]
  omega

theorem bases_apart {t u : KTable} (hne : t ≠ u)
    (hbase : ¬ CoreArea.SameBase (.table t) (.table u)) :
    t.base.num + 256 ≤ u.base.num ∨ u.base.num + 256 ≤ t.base.num := by
  revert hne hbase
  cases t <;> cases u <;> decide

/-- The first page belongs to both tables if they have the same address. -/
theorem pages_disjoint_iff {t u : KTable} (hne : t ≠ u) {n : ℕ} (hpos : 1 ≤ n) (hn : n ≤ 128) :
    Disjoint (t.pages n) (u.pages n) ↔ ¬ CoreArea.SameBase (.table t) (.table u) := by
  have ht := t.pageCount_bounds hpos hn
  have hu := u.pageCount_bounds hpos hn
  constructor
  · intro hdisjoint hsame
    have hbase : t.base = u.base := by
      rcases hsame with ⟨ht, hu⟩ | ⟨ht, hu⟩ <;> cases ht <;> cases hu <;> rfl
    refine Set.disjoint_left.mp hdisjoint (mem_pages.mpr ⟨le_rfl, ?_⟩) (mem_pages.mpr ⟨?_, ?_⟩)
    · exact Nat.lt_add_of_pos_right ht.1
    · exact (congrArg Page.num hbase).ge
    · rw [hbase]
      exact Nat.lt_add_of_pos_right hu.1
  · intro hsame
    refine Set.disjoint_left.mpr fun q hqt hqu => ?_
    rw [mem_pages] at hqt hqu
    rcases bases_apart hne hsame with h | h <;> omega

end KTable

/-- **Which areas of the cores overlap.**  Only task state segments and NMI stacks do, as their
tables start at the same address: the segments of cores 0 to 78 lie in the NMI stack of core 0,
those from 78 on in the stack of core 1.  Accordingly `ignite` maps the first pages of these two
tables twice, and no page of any other two. -/
theorem core_areas_disjoint_iff {n : ℕ} (hpos : 1 ≤ n) (hn : n ≤ 128) :
    (∀ (f g : CoreArea) (i j : ℕ), i < n → j < n → (f, i) ≠ (g, j) →
      (Disjoint (f.area i) (g.area j) ↔ ¬ (CoreArea.Clash f i g j ∨ CoreArea.Clash g j f i))) ∧
    ∀ t u : KTable, t ≠ u →
      (Disjoint (t.pages n) (u.pages n) ↔ ¬ CoreArea.SameBase (.table t) (.table u)) := by
  refine ⟨fun f g i j hi hj hne => ?_, fun t u hne => KTable.pages_disjoint_iff hne hpos hn⟩
  exact CoreArea.area_disjoint_iff (by omega) (by omega) hne

theorem core_areas_oneCore :
    Disjoint ((CoreArea.table .stack).area 0) (CoreArea.window.area 0) ∧
      Disjoint (KTable.stack.pages 1) (KTable.gdt.pages 1) := by
  obtain ⟨hareas, hpages⟩ := core_areas_disjoint_iff (n := 1) le_rfl (by decide)
  refine ⟨(hareas _ _ 0 0 (by decide) (by decide) (by decide)).mpr ?_,
    (hpages _ _ (by decide)).mpr (by decide)⟩
  simp [CoreArea.Clash]

/-- The first byte of the task state segment of core 0 is in its NMI stack, and one page is mapped
for both tables. -/
theorem tss_in_nmiStack : 0xFFFF870000000000 ∈ (CoreArea.table .tss).area 0 ∧
    0xFFFF870000000000 ∈ (CoreArea.table .nmi).area 0 ∧
    ⟨0xFFFF870000000, by decide⟩ ∈ KTable.tss.pages 1 ∧
    ⟨0xFFFF870000000, by decide⟩ ∈ KTable.nmi.pages 1 := by
  rw [CoreArea.area_eq, CoreArea.area_eq, KTable.mem_pages, KTable.mem_pages, Set.mem_Ico,
    Set.mem_Ico]
  decide

end HeliumOS.Proc
