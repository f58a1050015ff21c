import HeliumOS.Proc.Boot

/-!
# The Order of the Boot

The code of the cores passes the checks of `Lib.Startup`, function by function.

- `publishes`: what a core that has seen one of the three flags may rely on.
- `rank`: the order in which locks are taken.
- `boot_never_fails`: no core unwraps an empty `Once` or touches memory that is not mapped, and a
  core in the event loop has all that interrupts and system calls need.
- `boot_completes`: no core waits forever.  Every way to interleave the cores leads all of them into
  the event loop.
-/

namespace HeliumOS.Proc.Boot

open HeliumOS.Lib HeliumOS.Lib.Startup

/-! ## What is set up before it is used -/

/-- What is set before a flag is. -/
def publishes (env : BootEnv) : Cell → Set Cell
  | .IGNITION => {.FRAMEBUFFER, .heap, .idt, .INITRD, .tables, .TASKS, .PROC_TABLE} ∪
      {k | k = .APIC_CONFIG ∧ env.acpi.any AcpiWork.hasNmi}
  | .MAPPED => {.lapic}
  | _ => ∅

section Discipline

variable {env : BootEnv} {K : Set Cell}

@[simp] theorem knows_guarded (r : Lock) (m : LockMode) (as : Code) :
    knows (publishes env) K (guarded r m as) = knows (publishes env) K as := by
  simp [guarded]

@[simp] theorem disciplined_guarded (r : Lock) (m : LockMode) (as : Code) :
    Disciplined (publishes env) K (guarded r m as) ↔ Disciplined (publishes env) K as := by
  simp [guarded, disciplined_append]

/-- Code without sets and without waiting. -/
theorem knows_flatMap {α : Type*} {f : α → Code} (h : ∀ x, knows (publishes env) K (f x) = K)
    (xs : List α) : knows (publishes env) K (xs.flatMap f) = K := by
  induction xs with
  | nil => rfl
  | cons x xs ih => rw [List.flatMap_cons, knows_append, h, ih]

@[simp] theorem knows_println : knows (publishes env) K (println env []) = K := by
  unfold println
  split_ifs <;> simp

@[simp] theorem println_disciplined : Disciplined (publishes env) K (println env []) := by
  unfold println
  split_ifs <;> simp

@[simp] theorem knows_debugSetPixel : knows (publishes env) K debugSetPixel = K := by
  simp [debugSetPixel]

@[simp] theorem disciplined_debugSetPixel :
    Disciplined (publishes env) K debugSetPixel ↔ .FRAMEBUFFER ∈ K := by
  simp [debugSetPixel]

@[simp] theorem knows_earlyAlloc : knows (publishes env) K earlyAlloc = K := by
  simp [earlyAlloc]

@[simp] theorem disciplined_earlyAlloc :
    Disciplined (publishes env) K earlyAlloc ↔ .earlyHeap ∈ K := by
  simp [earlyAlloc]

@[simp] theorem knows_heapAlloc : knows (publishes env) K heapAlloc = K := by
  simp [heapAlloc]

@[simp] theorem disciplined_heapAlloc : Disciplined (publishes env) K heapAlloc ↔ .heap ∈ K := by
  simp [heapAlloc]

@[simp] theorem knows_palloc : knows (publishes env) K palloc = K := by
  simp [palloc]

@[simp] theorem disciplined_palloc : Disciplined (publishes env) K palloc ↔ .phys ∈ K := by
  simp [palloc]

@[simp] theorem knows_vmap (n : ℕ) : knows (publishes env) K (vmap n) = K := by
  simp [vmap, knows_flatMap fun _ => knows_palloc]

/-- The mapper can be used. -/
structure Maps (K : Set Cell) : Prop where
  phys : .phys ∈ K
  vcache : .VCACHE ∈ K
  p4table : .P4TABLE ∈ K

theorem vmap_disciplined (h : Maps K) (n : ℕ) : Disciplined (publishes env) K (vmap n) := by
  have hpalloc : Disciplined (publishes env) K ((List.range n).flatMap fun _ => palloc) :=
    Disciplined.flatMap fun _ => disciplined_palloc.mpr h.phys
  simp [vmap, h.vcache, h.p4table, hpalloc]

@[simp] theorem knows_valloc (pages : List ℕ) : knows (publishes env) K (valloc pages) = K := by
  rw [valloc]
  exact knows_flatMap (fun _ => by rw [knows_append, knows_palloc, knows_vmap]) pages

theorem valloc_disciplined (h : Maps K) (pages : List ℕ) :
    Disciplined (publishes env) K (valloc pages) := by
  rw [valloc]
  exact Disciplined.flatMap fun n => (disciplined_palloc.mpr h.phys).append (vmap_disciplined h n)
    subset_knows

/-! ### The bootstrap core -/

theorem knows_physInit : knows (publishes env) K (physInit env) = insert .phys K := by
  have hmmap : knows (publishes env) K
      (env.mmap.flatMap fun usable => println env [] ++ if usable then earlyAlloc else []) = K := by
    refine knows_flatMap (fun usable => ?_) _
    rw [knows_append, knows_println]
    split_ifs
    · exact knows_earlyAlloc
    · rfl
  have hsegments : knows (publishes env) K
      ((env.mmap.filter id).flatMap fun _ => println env [] ++ earlyAlloc) = K :=
    knows_flatMap (fun _ => by simp) _
  simp [physInit, hmmap, hsegments]

theorem physInit_disciplined (h : .earlyHeap ∈ K) :
    Disciplined (publishes env) K (physInit env) := by
  rw [physInit]
  refine Disciplined.append (Disciplined.append (Disciplined.append ?_ ?_ subset_knows)
    println_disciplined subset_knows) ?_ subset_knows
  · refine Disciplined.flatMap fun usable => println_disciplined.append ?_ subset_knows
    split_ifs
    · exact disciplined_earlyAlloc.mpr h
    · trivial
  · exact Disciplined.flatMap fun _ =>
      println_disciplined.append (disciplined_earlyAlloc.mpr h) subset_knows
  · simp [publishes]

theorem knows_vcacheInit : knows (publishes env) K (vcacheInit env) = insert .VCACHE K := by
  simp [vcacheInit, knows_flatMap fun _ => knows_palloc]

theorem vcacheInit_disciplined (hearly : .earlyHeap ∈ K) (hphys : .phys ∈ K) :
    Disciplined (publishes env) K (vcacheInit env) := by
  rw [vcacheInit]
  refine Disciplined.append (Disciplined.append ?_ (disciplined_earlyAlloc.mpr hearly) subset_knows)
    ?_ subset_knows
  · exact Disciplined.flatMap fun _ => disciplined_palloc.mpr hphys
  · simp [publishes]

theorem knows_mapHeader : knows (publishes env) K (mapHeader env) = K := by
  simp [mapHeader, knows_flatMap fun _ => knows_earlyAlloc]

theorem mapHeader_disciplined (h : Maps K) (hearly : .earlyHeap ∈ K) :
    Disciplined (publishes env) K (mapHeader env) := by
  rw [mapHeader]
  refine Disciplined.append (Disciplined.append ?_ (vmap_disciplined h _) subset_knows) ?_
    subset_knows
  · simp
  · rw [disciplined_guarded]
    exact Disciplined.flatMap fun _ => disciplined_earlyAlloc.mpr hearly

theorem knows_memInit : knows (publishes env) K (memInit env) =
    {.heap, .P4TABLE, .VCACHE, .phys, .earlyHeap} ∪ K := by
  simp only [memInit, knows_append, earlyHeapInit, knows_guarded, knows, knows_physInit,
    knows_vcacheInit, mapperInit, knows_mapHeader, removeIdentity, heapInit, knows_valloc,
    Set.insert_union, Set.singleton_union]

/-- **`mem::init` from nothing.** Each of its parts finds what the parts before it have set up. -/
theorem memInit_disciplined : Disciplined (publishes env) K (memInit env) := by
  have hmaps : Maps (insert .P4TABLE (insert .VCACHE (insert .phys (insert .earlyHeap K)))) :=
    ⟨by simp, by simp, by simp⟩
  simp only [memInit, disciplined_append, knows_append, earlyHeapInit, disciplined_guarded,
    knows_guarded, knows, knows_physInit, knows_vcacheInit, mapperInit, knows_mapHeader,
    removeIdentity, heapInit, knows_valloc]
  refine ⟨⟨⟨⟨⟨⟨?_, physInit_disciplined (by simp)⟩, vcacheInit_disciplined (by simp)
    (by simp)⟩, ?_⟩, mapHeader_disciplined hmaps (by simp)⟩, ?_⟩, valloc_disciplined hmaps _, ?_⟩
  all_goals simp [publishes]

theorem knows_initrdInit : knows (publishes env) K (initrdInit env) = insert .INITRD K := by
  have hentries : knows (publishes env) K
      (env.initrd.flatMap fun inserted => if inserted then println env [] ++ heapAlloc else [])
      = K := by
    refine knows_flatMap (fun inserted => ?_) _
    cases inserted <;> simp
  simp [initrdInit, hentries]

theorem initrdInit_disciplined (h : Maps K) (hheap : .heap ∈ K) :
    Disciplined (publishes env) K (initrdInit env) := by
  rw [initrdInit]
  refine Disciplined.append (Disciplined.append (vmap_disciplined h _) ?_ subset_knows) ?_
    subset_knows
  · refine Disciplined.flatMap fun inserted => ?_
    split_ifs
    · exact println_disciplined.append (disciplined_heapAlloc.mpr hheap) subset_knows
    · trivial
  · simp [publishes]

theorem acpiEntry_disciplined (h : Maps K) (hheap : .heap ∈ K) (entry : MadtEntry) :
    Disciplined (publishes env) K (acpiEntry env entry) := by
  cases entry with
  | ioApic tables =>
    have hvmap : Disciplined (publishes env) (insert .IOAPIC K) (vmap tables) :=
      (vmap_disciplined h tables).mono (Set.subset_insert _ _)
    simp [acpiEntry, disciplined_append, publishes, hvmap, hheap]
  | localApic | interruptSourceOverride | localApicNmi | other =>
    simp [acpiEntry, disciplined_append, publishes, hheap]

/-- The walk over the ACPI tables maps, allocates, and looks for handlers. -/
theorem acpiWork_disciplined (h : Maps K) (hheap : .heap ∈ K) (hhandlers : .HANDLERS ∈ K)
    (work : AcpiWork) : Disciplined (publishes env) K (acpiWork env work) := by
  cases work with
  | mapTable vmaps =>
    rw [acpiWork]
    exact (Disciplined.flatMap (vmap_disciplined h)).append (disciplined_heapAlloc.mpr hheap)
      subset_knows
  | invalidChecksum =>
    rw [acpiWork]
    exact println_disciplined
  | madt entries =>
    rw [acpiWork]
    refine ⟨hhandlers, (disciplined_guarded _ _ _).mpr ?_⟩
    exact println_disciplined.append (Disciplined.flatMap (acpiEntry_disciplined h hheap))
      subset_knows
  | noHandler =>
    rw [acpiWork, println]
    refine ⟨hhandlers, Disciplined.append (by simp) ?_ subset_knows⟩
    split_ifs
    · simpa using hheap
    · trivial

/-- The handler makes `APIC_CONFIG` if there is an entry for it. -/
theorem set_mem_acpiInit (h : env.acpi.any AcpiWork.hasNmi = true) :
    .set .APIC_CONFIG ∈ acpiInit env := by
  obtain ⟨work, hwork, hnmi⟩ := List.any_eq_true.mp h
  rw [acpiInit]
  refine List.mem_flatMap.mpr ⟨work, hwork, ?_⟩
  cases work with
  | madt entries =>
    have hentry : MadtEntry.localApicNmi ∈ entries := List.contains_iff_mem.mp hnmi
    have hset : .set .APIC_CONFIG ∈ entries.flatMap (acpiEntry env) :=
      List.mem_flatMap.mpr ⟨_, hentry, by simp [acpiEntry]⟩
    simp [acpiWork, guarded, hset]
  | mapTable | invalidChecksum | noHandler => cases hnmi

theorem knows_startMemory : knows (publishes env) ∅ (startMemory env) =
    {.FRAMEBUFFER, .heap, .P4TABLE, .VCACHE, .phys, .earlyHeap} := by
  simp only [startMemory, knows_append, knows_debugSetPixel, knows_println, knows_memInit]
  simp

theorem startMemory_disciplined : Disciplined (publishes env) ∅ (startMemory env) := by
  simp only [startMemory, disciplined_append, knows_append, knows_debugSetPixel, knows_println]
  simp [memInit_disciplined, publishes]

theorem knows_startTables : knows (publishes env) K (startTables env) =
    {.HANDLERS, .INITRD, .idt} ∪ K := by
  simp only [startTables, knows_append, knows_debugSetPixel, knows_println, knows_initrdInit,
    interruptsInit, consoleInit, cfgtbInit, knows_guarded, knows_heapAlloc]
  simp [Set.insert_union]

theorem startTables_disciplined (h : Maps K) (hheap : .heap ∈ K) (hfb : .FRAMEBUFFER ∈ K) :
    Disciplined (publishes env) K (startTables env) := by
  have hmaps : Maps (insert .idt K) := ⟨.inr h.phys, .inr h.vcache, .inr h.p4table⟩
  simp only [startTables, disciplined_append, knows_append, knows_debugSetPixel, knows_println,
    knows_initrdInit, interruptsInit, consoleInit, cfgtbInit, knows_guarded, disciplined_guarded]
  simp [publishes, hfb, hheap, initrdInit_disciplined hmaps]

/-- What the bootstrap core knows when it looks for the ACPI tables. -/
def beforeAcpi : Set Cell :=
  {.HANDLERS, .INITRD, .idt} ∪ {.FRAMEBUFFER, .heap, .P4TABLE, .VCACHE, .phys, .earlyHeap}

theorem maps_beforeAcpi : Maps beforeAcpi :=
  ⟨by simp [beforeAcpi], by simp [beforeAcpi], by simp [beforeAcpi]⟩

theorem start_disciplined : Disciplined (publishes env) ∅ (start env) := by
  have hfb : .FRAMEBUFFER ∈ beforeAcpi := by simp [beforeAcpi]
  have hacpi : Disciplined (publishes env) beforeAcpi (acpiInit env) := by
    rw [acpiInit]
    exact Disciplined.flatMap
      (acpiWork_disciplined maps_beforeAcpi (by simp [beforeAcpi]) (by simp [beforeAcpi]))
  have htables : Disciplined (publishes env)
      {.FRAMEBUFFER, .heap, .P4TABLE, .VCACHE, .phys, .earlyHeap} (startTables env) :=
    startTables_disciplined ⟨by simp, by simp, by simp⟩ (by simp) (by simp)
  simp only [start, disciplined_append, knows_append, knows_debugSetPixel, knows_println,
    knows_startMemory, knows_startTables, disciplined_debugSetPixel]
  exact ⟨⟨⟨⟨⟨⟨startMemory_disciplined, htables⟩, hfb⟩, println_disciplined⟩, hacpi⟩,
    subset_knows hfb⟩, println_disciplined⟩

/-- What the bootstrap core knows when it calls `ignite`. -/
theorem beforeAcpi_subset : beforeAcpi ⊆ knows (publishes env) ∅ (start env) := by
  simp only [start, knows_append, knows_debugSetPixel, knows_println, knows_startMemory,
    knows_startTables]
  exact subset_knows

theorem apicConfig_mem (h : env.acpi.any AcpiWork.hasNmi = true) :
    .APIC_CONFIG ∈ knows (publishes env) ∅ (start env) := by
  refine mem_knows_of_set ?_
  simp only [start, List.mem_append]
  exact .inl (.inl (.inr (set_mem_acpiInit h)))

theorem knows_ignite : knows (publishes env) K (ignite env) =
    {.IGNITION, .PROC_TABLE, .TASKS, .tables} ∪ K := by
  simp only [ignite, igniteTables, gdtInit, numcores, knows_append, knows_debugSetPixel,
    knows_println, knows_valloc, knows_guarded]
  simp [Set.insert_union]

/-- `ignite` may set `IGNITION`: all that the flag stands for is set by then. -/
theorem ignite_disciplined (h : beforeAcpi ⊆ K)
    (hnmi : env.acpi.any AcpiWork.hasNmi = true → .APIC_CONFIG ∈ K) :
    Disciplined (publishes env) K (ignite env) := by
  have hmaps : Maps K :=
    ⟨h maps_beforeAcpi.phys, h maps_beforeAcpi.vcache, h maps_beforeAcpi.p4table⟩
  have hfb : .FRAMEBUFFER ∈ K := h (by simp [beforeAcpi])
  have hheap : .heap ∈ K := h (by simp [beforeAcpi])
  have hidt : .idt ∈ K := h (by simp [beforeAcpi])
  have hinitrd : .INITRD ∈ K := h (by simp [beforeAcpi])
  have hpublished : publishes env .IGNITION ⊆ insert .PROC_TABLE
      (insert .TASKS (insert .tables K)) := by
    rintro k (hk | ⟨rfl, hk⟩)
    · simp only [Set.mem_insert_iff, Set.mem_singleton_iff] at hk
      rcases hk with rfl | rfl | rfl | rfl | rfl | rfl | rfl <;> simp [*]
    · exact .inr (.inr (.inr (hnmi hk)))
  simp only [ignite, igniteTables, gdtInit, numcores, disciplined_append, knows_append,
    knows_debugSetPixel, knows_println, knows_valloc, knows_guarded, disciplined_guarded]
  have hplain : publishes env .tables = ∅ ∧ publishes env .TASKS = ∅ ∧
      publishes env .PROC_TABLE = ∅ :=
    ⟨rfl, rfl, rfl⟩
  simp [valloc_disciplined hmaps, hpublished, hfb, hplain]

/-! ### All cores -/

section Wakeup

variable {primary : Bool} {id : ℕ}

theorem mapLapic_disciplined (hfb : .FRAMEBUFFER ∈ K) (hmaps : primary = true → Maps K) :
    Disciplined (publishes env) K (mapLapic env primary) := by
  cases primary with
  | true =>
    simp only [mapLapic, if_true, disciplined_append, knows_append, knows_debugSetPixel,
      knows_println, knows_vmap]
    simp [publishes, hfb, vmap_disciplined (hmaps rfl)]
  | false => simp [mapLapic]

/-- Whoever maps the registers and whoever waits for that may use them. -/
theorem lapic_mem_knows : .lapic ∈ knows (publishes env) K (mapLapic env primary) := by
  cases primary with
  | true => exact mem_knows_of_set (by simp [mapLapic])
  | false => simp [mapLapic, publishes]

@[simp] theorem knows_pitCalibSleep : knows (publishes env) K (pitCalibSleep env id) = K := by
  unfold pitCalibSleep
  split_ifs <;> simp

theorem pitCalibSleep_disciplined (hfb : .FRAMEBUFFER ∈ K) (hlapic : .lapic ∈ K) :
    Disciplined (publishes env) K (pitCalibSleep env id) := by
  unfold pitCalibSleep
  split_ifs <;> simp [disciplined_append, hfb, hlapic]

theorem knows_apicInit : knows (publishes env) K (apicInit env primary id) =
    knows (publishes env) K (mapLapic env primary) := by
  simp only [apicInit, knows_append, knows_debugSetPixel, knows_println, knows_pitCalibSleep]
  split_ifs <;> simp

/-- `apic::init` on any core. The bootstrap core has mapped the registers, the others have seen
`MAPPED`, and from there on the code is the same. -/
theorem apicInit_disciplined (hfb : .FRAMEBUFFER ∈ K) (hmaps : primary = true → Maps K)
    (hnmi : env.acpi.any AcpiWork.hasNmi = true → .APIC_CONFIG ∈ K) :
    Disciplined (publishes env) K (apicInit env primary id) := by
  have hmap : Disciplined (publishes env) K (mapLapic env primary) := mapLapic_disciplined hfb hmaps
  have hlapic : .lapic ∈ knows (publishes env) K (mapLapic env primary) := lapic_mem_knows
  have hsub : K ⊆ knows (publishes env) K (mapLapic env primary) := subset_knows
  simp only [apicInit, disciplined_append, knows_append, knows_debugSetPixel, knows_println,
    knows_pitCalibSleep]
  generalize knows (publishes env) K (mapLapic env primary) = A at hlapic hsub
  have hfb' := hsub hfb
  have hconfig : Disciplined (publishes env) A
      (if env.acpi.any AcpiWork.hasNmi then .use .APIC_CONFIG :: guarded .APIC_CONFIG .read
        [.use .lapic]
        else []) := by
    split_ifs with h
    · simpa [Disciplined, hlapic] using hsub (hnmi h)
    · trivial
  refine ⟨?_, hconfig⟩
  simp [hmap, hlapic, hfb', pitCalibSleep_disciplined]

theorem knows_register : knows (publishes env) K (register id) = insert (.gdt id) K := by
  simp [register]

theorem knows_wakeupEntry : knows (publishes env) K (wakeupEntry id) =
    {.kernelGsBase id, .entry id, .gdt id, .slot id} ∪ K := by
  simp only [wakeupEntry, knows_append, knows_debugSetPixel, knows_register, procInstance]
  simp [Set.insert_union]

theorem wakeupEntry_disciplined (hfb : .FRAMEBUFFER ∈ K) (hheap : .heap ∈ K) (htables : .tables ∈ K)
    (hproc : .PROC_TABLE ∈ K) : Disciplined (publishes env) K (wakeupEntry id) := by
  have hregister : Disciplined (publishes env) (insert (.slot id) K) (register id) := by
    simp [register, disciplined_append, publishes, hfb, htables]
  simp only [wakeupEntry, disciplined_append, knows_append, knows_debugSetPixel, knows_register,
    procInstance]
  simp [disciplined_append, publishes, hregister, hfb, hheap, htables, hproc]

theorem knows_lateIgnition : knows (publishes env) K (lateIgnition env primary) =
    insert .LATE_IGNITION K := by
  cases primary <;> simp [lateIgnition, publishes]

theorem lateIgnition_disciplined (hfb : .FRAMEBUFFER ∈ K) :
    Disciplined (publishes env) K (lateIgnition env primary) := by
  cases primary <;> simp [lateIgnition, disciplined_append, publishes, hfb]

/-- **`wakeup` on any core**, given what `IGNITION` publishes. Only the bootstrap core maps pages.
-/
theorem wakeup_disciplined (hignition : publishes env .IGNITION ⊆ K)
    (hmaps : primary = true → Maps K) : Disciplined (publishes env) K (wakeup env primary id) := by
  have hfb : .FRAMEBUFFER ∈ K := hignition (by simp [publishes])
  have hheap : .heap ∈ K := hignition (by simp [publishes])
  have hidt : .idt ∈ K := hignition (by simp [publishes])
  have htables : .tables ∈ K := hignition (by simp [publishes])
  have hproc : .PROC_TABLE ∈ K := hignition (by simp [publishes])
  have hentry : Disciplined (publishes env) K (wakeupEntry id) :=
    wakeupEntry_disciplined hfb hheap htables hproc
  have hapic : Disciplined (publishes env) ({.kernelGsBase id, .entry id, .gdt id, .slot id} ∪ K)
      (apicInit env primary id) := by
    refine apicInit_disciplined (.inr hfb) (fun h => ?_) fun h => .inr (hignition (.inr ⟨rfl, h⟩))
    exact ⟨.inr (hmaps h).phys, .inr (hmaps h).vcache, .inr (hmaps h).p4table⟩
  have hsub : {.kernelGsBase id, .entry id, .gdt id, .slot id} ∪ K ⊆ knows (publishes env)
      ({.kernelGsBase id, .entry id, .gdt id, .slot id} ∪ K) (mapLapic env primary) := subset_knows
  simp only [wakeup, disciplined_append, knows_append, knows_debugSetPixel, knows_println,
    knows_wakeupEntry, knows_apicInit, knows_lateIgnition, interruptsLoad, syscallEnable,
    procInstance]
  -- what is known after `apic::init` is all that was known before
  generalize knows (publishes env) ({.kernelGsBase id, .entry id, .gdt id, .slot id} ∪ K)
    (mapLapic env primary) = A at hsub
  have hfb' : .FRAMEBUFFER ∈ A := hsub (.inr hfb)
  have hidt' : .idt ∈ A := hsub (.inr hidt)
  have htables' : .tables ∈ A := hsub (.inr htables)
  have hproc' : .PROC_TABLE ∈ A := hsub (.inr hproc)
  have hown : .kernelGsBase id ∈ A ∧ .entry id ∈ A ∧ .gdt id ∈ A :=
    ⟨hsub (by simp), hsub (by simp), hsub (by simp)⟩
  simp [publishes, hentry, hapic, hfb', hidt', htables', hproc', hown,
    lateIgnition_disciplined]

/-- Everything the event loop relies on is known at the end of `wakeup`. -/
theorem ready_subset_wakeup (hignition : publishes env .IGNITION ⊆ K) :
    ready id ⊆ knows (publishes env) K (wakeup env primary id) := by
  have hsub : {.kernelGsBase id, .entry id, .gdt id, .slot id} ∪ K ⊆ knows (publishes env)
      ({.kernelGsBase id, .entry id, .gdt id, .slot id} ∪ K) (mapLapic env primary) := subset_knows
  have hlapic : .lapic ∈ knows (publishes env)
      ({.kernelGsBase id, .entry id, .gdt id, .slot id} ∪ K) (mapLapic env primary) :=
      lapic_mem_knows
  simp only [wakeup, knows_append, knows_debugSetPixel, knows_println, knows_wakeupEntry,
    knows_apicInit, knows_lateIgnition, interruptsLoad, syscallEnable, procInstance,
    knows_guarded, knows]
  generalize knows (publishes env) ({.kernelGsBase id, .entry id, .gdt id, .slot id} ∪ K)
    (mapLapic env primary) = A at hsub hlapic
  have hold {k : Cell} (hk : k ∈ publishes env .IGNITION) : k ∈ A := hsub (.inr (hignition hk))
  have hown : .kernelGsBase id ∈ A ∧ .entry id ∈ A ∧ .gdt id ∈ A ∧ .slot id ∈ A :=
    ⟨hsub (by simp), hsub (by simp), hsub (by simp), hsub (by simp)⟩
  simp [ready, Set.insert_subset_iff, hlapic, hown, hold, publishes]

end Wakeup

variable (env) in
/-- The whole code of a core, from an empty machine to the event loop. -/
theorem coreCode_disciplined (bspid id : ℕ) :
    Disciplined (publishes env) ∅ (coreCode env bspid id) ∧
    ready id ⊆ knows (publishes env) ∅ (coreCode env bspid id) := by
  unfold coreCode
  split_ifs with hprimary
  · have hmaps : Maps (knows (publishes env) ∅ (start env ++ ignite env)) := by
      rw [knows_append, knows_ignite]
      exact ⟨.inr (beforeAcpi_subset maps_beforeAcpi.phys),
        .inr (beforeAcpi_subset maps_beforeAcpi.vcache),
        .inr (beforeAcpi_subset maps_beforeAcpi.p4table)⟩
    have hbefore : Disciplined (publishes env) ∅ (start env ++ ignite env) :=
      disciplined_append.mpr
        ⟨start_disciplined, ignite_disciplined beforeAcpi_subset apicConfig_mem⟩
    have hignition : publishes env .IGNITION ⊆ knows (publishes env) ∅ (start env ++ ignite env) :=
      hbefore.publishes_subset (List.mem_append_right _ (by simp [ignite]))
    refine ⟨disciplined_append.mpr ⟨hbefore, wakeup_disciplined hignition fun _ => hmaps⟩, ?_⟩
    exact (ready_subset_wakeup hignition).trans knows_append.symm.subset
  · have hignition : publishes env .IGNITION ⊆ knows (publishes env) ∅
        ([.await .IGNITION] : Code) :=
      (Set.subset_union_left).trans (Set.subset_insert _ _)
    refine ⟨disciplined_append.mpr ⟨trivial, wakeup_disciplined hignition (by simp)⟩, ?_⟩
    exact (ready_subset_wakeup hignition).trans knows_append.symm.subset

end Discipline

/-! ## Who waits for whom -/

/-- The order in which locks are taken. -/
def rank : Lock → ℕ
  | .HANDLERS => 0
  | .NUMCORES | .IOAPIC | .IOAPIC_REDIRECTION | .APIC_CONFIG | .PROC_TABLE | .CALIB_LOCK | .IDT => 1
  | .MAPPER => 2
  | .VCACHE => 3
  | .P4TABLE => 4
  | .PHYS_FRAME_ALLOCATOR | .EARLY_HEAP => 5
  | .EARLY_ALLOCATOR => 6
  | .DEBUG_WRITER => 7
  | .GLOB_ALLOCATOR => 8
  | .FRAMEBUFFER => 9

/-- The order of the flags that cores spin on; the other cells come behind. -/
def order : Cell → ℕ
  | .IGNITION => 0
  | .MAPPED => 1
  | .LATE_IGNITION => 2
  | _ => 3

theorem rank_lt (r : Lock) : rank r < 10 := by
  cases r <;> decide

section Order

variable {env : BootEnv} {n : ℕ}

theorem nested_guarded {r : Lock} {m : LockMode} {as : Code} (h : Nested rank (rank r + 1) as)
    (hn : n ≤ rank r) : Nested rank n (guarded r m as) :=
  h.section_lock hn

theorem println_nested {args : Code} (h : Nested rank 8 args) :
    Nested rank 7 (println env args) := by
  unfold println
  split_ifs
  · exact nested_guarded h (Nat.le_refl 7)
  · exact Nested.nil

theorem debugSetPixel_nested : Nested rank 9 debugSetPixel := by
  unfold debugSetPixel
  exact (nested_guarded Nested.nil (Nat.le_refl 9)).use _

theorem earlyAlloc_nested : Nested rank 6 earlyAlloc := by
  unfold earlyAlloc
  exact (nested_guarded Nested.nil (Nat.le_refl 6)).use _

theorem heapAlloc_nested : Nested rank 8 heapAlloc := by
  unfold heapAlloc
  exact (nested_guarded Nested.nil (Nat.le_refl 8)).use _

theorem palloc_nested : Nested rank 5 palloc := by
  unfold palloc
  exact nested_guarded (Nested.nil.use _) (Nat.le_refl 5)

/-- `vmap` goes through four locks: the mapper, the cache, the top table, the allocator of frames.
-/
theorem vmap_nested (tables : ℕ) : Nested rank 2 (vmap tables) := by
  have hp4 : Nested rank 4 (.use .P4TABLE :: guarded .P4TABLE .write
      ((List.range tables).flatMap fun _ => palloc)) :=
    Nested.use _ (nested_guarded (Nested.flatMap fun _ => palloc_nested) (Nat.le_refl 4))
  have hvcache : Nested rank 3 (.use .VCACHE :: guarded .VCACHE .write
      (.use .P4TABLE :: guarded .P4TABLE .write ((List.range tables).flatMap fun _ => palloc))) :=
    Nested.use _ (nested_guarded hp4 (Nat.le_refl 3))
  unfold vmap
  exact nested_guarded hvcache (Nat.le_refl 2)

theorem valloc_nested (pages : List ℕ) : Nested rank 2 (valloc pages) := by
  unfold valloc
  exact Nested.flatMap fun tables => (palloc_nested.mono (by decide)).append (vmap_nested tables)

/-- The functions that all others call, where only locks below `n` are held. -/
structure Basics (env : BootEnv) (n : ℕ) : Prop where
  println : Nested rank n (println env [])
  pixel : Nested rank n debugSetPixel
  early : Nested rank n earlyAlloc
  heap : Nested rank n heapAlloc
  palloc : Nested rank n palloc
  vmap : ∀ tables, Nested rank n (vmap tables)
  valloc : ∀ pages, Nested rank n (valloc pages)
  set : ∀ k, Nested rank n ([.set k] : Code)
  use : ∀ k, Nested rank n ([.use k] : Code)

theorem basics (env : BootEnv) (hn : n ≤ 2) : Basics env n where
  println := (println_nested Nested.nil).mono (by omega)
  pixel := debugSetPixel_nested.mono (by omega)
  early := earlyAlloc_nested.mono (by omega)
  heap := heapAlloc_nested.mono (by omega)
  palloc := palloc_nested.mono (by omega)
  vmap := fun tables => (vmap_nested tables).mono hn
  valloc := fun pages => (valloc_nested pages).mono hn
  set := fun k => Nested.nil.set k
  use := fun k => Nested.nil.use k

theorem physInit_nested : Nested rank 0 (physInit env) := by
  obtain ⟨hprint, -, hearly, -, -, -, -, hset, -⟩ := basics env (Nat.zero_le 2)
  unfold physInit
  refine (((Nested.flatMap fun usable => hprint.append ?_).append
    (Nested.flatMap fun _ => hprint.append hearly)).append hprint).append
    (nested_guarded (Nested.nil.set _) (by decide))
  split_ifs
  · exact hearly
  · exact Nested.nil

theorem mapHeader_nested : Nested rank 0 (mapHeader env) := by
  have hsegments : Nested rank 6 ((env.mmap.filter id).flatMap fun _ => earlyAlloc) :=
    Nested.flatMap fun _ => earlyAlloc_nested
  have hread : Nested rank 0 (guarded .PHYS_FRAME_ALLOCATOR .read []) :=
    nested_guarded Nested.nil (by decide)
  unfold mapHeader
  exact (hread.append ((basics env (Nat.zero_le 2)).vmap _)).append
    (nested_guarded hsegments (by decide))

/-- `mem::init`, part by part. -/
theorem memInit_nested : Nested rank 0 (memInit env) := by
  obtain ⟨-, -, hearly, -, hpalloc, -, hvalloc, hset, -⟩ := basics env (Nat.zero_le 2)
  have hearlyHeap : Nested rank 0 earlyHeapInit := by
    have halloc : Nested rank 6 (guarded .EARLY_ALLOCATOR .write [.set .earlyHeap]) :=
      nested_guarded (Nested.nil.set _) (by decide)
    unfold earlyHeapInit
    exact nested_guarded halloc (by decide)
  have hvcache : Nested rank 0 (vcacheInit env) := by
    unfold vcacheInit
    exact ((Nested.flatMap fun _ => hpalloc).append hearly).append (hset _)
  have hmapper : Nested rank 0 mapperInit := by
    unfold mapperInit
    exact Nested.use _ (nested_guarded (Nested.nil.set _) (by decide))
  have hidentity : Nested rank 0 removeIdentity := by
    unfold removeIdentity
    exact Nested.use _ (nested_guarded Nested.nil (by decide))
  have hheap : Nested rank 0 (heapInit env) := by
    unfold heapInit
    exact (hvalloc _).append (nested_guarded (Nested.nil.set _) (by decide))
  unfold memInit
  exact (((((hearlyHeap.append physInit_nested).append hvcache).append hmapper).append
    mapHeader_nested).append hidentity).append hheap

theorem initrdInit_nested : Nested rank 0 (initrdInit env) := by
  obtain ⟨hprint, -, -, hheap, -, hvmap, -, hset, -⟩ := basics env (Nat.zero_le 2)
  unfold initrdInit
  refine ((hvmap _).append (Nested.flatMap fun inserted => ?_)).append (hset _)
  split_ifs
  · exact hprint.append hheap
  · exact Nested.nil

/-- The handler runs under the guard of `cfgtb::acpi::call`, so that its locks come behind it. -/
theorem acpiEntry_nested (entry : MadtEntry) : Nested rank 1 (acpiEntry env entry) := by
  have hprint := (basics env (n := 1) (by decide)).println
  obtain ⟨-, -, -, hheap, -, hvmap, -, -, -⟩ := basics env (Nat.le_refl 2)
  -- the cell is made, and its lock taken
  have hcell (k : Cell) : Nested rank 1 ([.set k, .use k] : Code) := (Nested.nil.use k).set k
  cases entry with
  | localApic =>
    rw [acpiEntry]
    exact hprint.append (nested_guarded Nested.nil (by decide))
  | ioApic tables =>
    rw [acpiEntry]
    exact (hprint.append (hcell _)).append
      (nested_guarded ((hvmap tables).append hheap) (by decide))
  | interruptSourceOverride | localApicNmi =>
    rw [acpiEntry]
    exact (hprint.append (hcell _)).append (nested_guarded hheap (by decide))
  | other =>
    rw [acpiEntry]
    exact hprint

/-- What the walk does with one table. -/
theorem acpiWork_nested (work : AcpiWork) : Nested rank 0 (acpiWork env work) := by
  obtain ⟨hprint, -, -, hheap, -, hvmap, -, -, -⟩ := basics env (Nat.zero_le 2)
  cases work with
  | mapTable vmaps =>
    rw [acpiWork]
    exact (Nested.flatMap hvmap).append hheap
  | invalidChecksum =>
    rw [acpiWork]
    exact hprint
  | madt entries =>
    have hentries : Nested rank 1 (println env [] ++ entries.flatMap (acpiEntry env)) :=
      (basics env (by decide)).println.append (Nested.flatMap acpiEntry_nested)
    rw [acpiWork]
    exact Nested.use _ (nested_guarded hentries (by decide))
  | noHandler =>
    have hread : Nested rank 0 (guarded .HANDLERS .read []) := nested_guarded Nested.nil (by decide)
    rw [acpiWork]
    exact Nested.use _ (hread.append ((println_nested heapAlloc_nested).mono (by decide)))

/-- `_start` on the bootstrap core. -/
theorem start_nested : Nested rank 0 (start env) := by
  obtain ⟨hprint, hpixel, -, hheap, -, -, -, hset, huse⟩ := basics env (Nat.zero_le 2)
  -- the parts of `_start`, in the order of the calls
  have hmemory : Nested rank 0 (startMemory env) := by
    unfold startMemory
    exact ((((((hprint.append (hset _)).append hpixel).append hprint).append hprint).append
      hpixel).append hprint).append memInit_nested
  have hinterrupts : Nested rank 0 interruptsInit := by
    unfold interruptsInit
    exact nested_guarded (Nested.nil.set _) (by decide)
  have hconsole : Nested rank 0 (consoleInit env) := by
    unfold consoleInit
    exact hprint.use _
  have hcfgtb : Nested rank 0 cfgtbInit := by
    have hregister : Nested rank 0 (guarded .HANDLERS .write heapAlloc) :=
      nested_guarded (heapAlloc_nested.mono (by decide)) (by decide)
    unfold cfgtbInit
    exact ((Nested.nil.use _).set _).append hregister
  have htables : Nested rank 0 (startTables env) := by
    unfold startTables
    exact (((((((hpixel.append hprint).append hinterrupts).append hprint).append
      initrdInit_nested).append hprint).append hconsole).append hprint).append hcfgtb
  have hacpi : Nested rank 0 (acpiInit env) := by
    unfold acpiInit
    exact Nested.flatMap acpiWork_nested
  unfold start
  exact (((((hmemory.append htables).append hpixel).append hprint).append hacpi).append
    hpixel).append hprint

theorem ignite_nested : Nested rank 0 (ignite env) := by
  obtain ⟨hprint, hpixel, -, -, -, -, hvalloc, -, -⟩ := basics env (Nat.zero_le 2)
  have hcores : Nested rank 0 numcores := by
    unfold numcores
    exact nested_guarded Nested.nil (by decide)
  have hgdt : Nested rank 0 (gdtInit env) := by
    unfold gdtInit
    exact (((hcores.append (hvalloc _)).append hprint).append hprint).append (hvalloc _)
  have htables : Nested rank 0 (igniteTables env) := by
    unfold igniteTables
    exact (((hcores.append (hvalloc _)).append hgdt).append (hvalloc _)).append (hvalloc _)
  have hcells : Nested rank 0 ([.set .tables, .set .TASKS, .set .PROC_TABLE, .set .IGNITION] :
      Code) :=
    (((Nested.nil.set _).set _).set _).set _
  unfold ignite
  exact (((htables.append hcells).append hpixel).append hpixel).append hpixel

theorem procInstance_nested (id : ℕ) : Nested rank 0 (procInstance id) := by
  unfold procInstance
  exact Nested.use _ (nested_guarded (Nested.nil.use _) (by decide))

/-- The first part of `wakeup`: `PROC_TABLE` is locked while the tree grows. -/
theorem wakeupEntry_nested (env : BootEnv) (id : ℕ) : Nested rank 0 (wakeupEntry id) := by
  obtain ⟨-, hpixel, -, -, -, -, -, hset, huse⟩ := basics env (Nat.zero_le 2)
  have hregister : Nested rank 0 (register id) := by
    unfold register
    repeat' first
      | apply Nested.append
      | exact hpixel
      | exact huse _
      | exact hset _
  have hinsert : Nested rank 0
      (.use .PROC_TABLE :: guarded .PROC_TABLE .write (heapAlloc ++ [.set (.entry id)])) :=
    Nested.use _ (nested_guarded ((heapAlloc_nested.mono (by decide)).append (Nested.nil.set _))
      (by decide))
  have hslot : Nested rank 0 ([.use .tables, .set (.slot id)] : Code) := (Nested.nil.set _).use _
  unfold wakeupEntry
  repeat' first
    | apply Nested.append
    | exact hpixel
    | exact hslot
    | exact hregister
    | exact hinsert
    | exact procInstance_nested id
    | exact hset _

/-- `apic::init`: one core at a time measures, and holds `CALIB_LOCK` meanwhile. -/
theorem apicInit_nested (primary : Bool) (id : ℕ) : Nested rank 0 (apicInit env primary id) := by
  obtain ⟨hprint, hpixel, -, -, -, hvmap, -, hset, huse⟩ := basics env (Nat.zero_le 2)
  have hmap : Nested rank 0 (mapLapic env primary) := by
    cases primary with
    | true =>
      rw [mapLapic, if_pos rfl]
      exact ((((hpixel.append hprint).append (hvmap _)).append (hset _)).append hpixel).append
        (hset _)
    | false =>
      rw [mapLapic, if_neg (by decide)]
      exact Nested.nil.await _
  -- the calibration prints while it holds `CALIB_LOCK`
  have hcalib : Nested rank 0 (pitCalibSleep env id) := by
    obtain ⟨hprint, hpixel, -, -, -, -, -, -, huse⟩ := basics env (Nat.le_refl 2)
    have hearly : Nested rank 2 (if env.early id then [] else
        [.use .lapic] ++ println env [] ++ debugSetPixel ++ debugSetPixel) := by
      split_ifs
      · exact Nested.nil
      · exact (((huse _).append hprint).append hpixel).append hpixel
    unfold pitCalibSleep
    exact nested_guarded (((hpixel.append hprint).append (huse _)).append hearly) (by decide)
  have hconfig : Nested rank 0 (if env.acpi.any AcpiWork.hasNmi then
      .use .APIC_CONFIG :: guarded .APIC_CONFIG .read [.use .lapic] else []) := by
    split_ifs
    · exact Nested.use _ (nested_guarded (Nested.nil.use _) (by decide))
    · exact Nested.nil
  unfold apicInit
  refine Nested.append ?_ hconfig
  repeat' first
    | apply Nested.append
    | exact hpixel
    | exact huse _
    | exact hprint
    | exact hmap
    | exact hcalib

/-- `wakeup`, on the bootstrap core and on the others. -/
theorem wakeup_nested (primary : Bool) (id : ℕ) : Nested rank 0 (wakeup env primary id) := by
  obtain ⟨hprint, hpixel, -, -, -, -, -, hset, huse⟩ := basics env (Nat.zero_le 2)
  have hentry := wakeupEntry_nested env id
  have hapic : Nested rank 0 (apicInit env primary id) := apicInit_nested primary id
  have hload : Nested rank 0 (interruptsLoad id) := by
    unfold interruptsLoad
    exact nested_guarded ((Nested.nil.set _).use _) (by decide)
  have henable : Nested rank 0 (syscallEnable id) := by
    unfold syscallEnable
    exact ((Nested.nil.set _).use _).use _
  have hlate : Nested rank 0 (lateIgnition env primary) := by
    cases primary with
    | true =>
      rw [lateIgnition, if_pos rfl]
      exact (hpixel.append hprint).append (hset _)
    | false =>
      rw [lateIgnition, if_neg (by decide)]
      exact Nested.nil.await _
  unfold wakeup
  exact ((((((((((((hentry.append hapic).append (procInstance_nested id)).append (hset _)).append
    hpixel).append hload).append hpixel).append henable).append hpixel).append hlate).append
    hpixel).append hpixel).append hprint).append (huse _)

variable (env) in
theorem coreCode_nested (bspid id : ℕ) : Nested rank 0 (coreCode env bspid id) := by
  unfold coreCode
  split_ifs
  · exact (start_nested.append ignite_nested).append (wakeup_nested true id)
  · exact (Nested.nil.await _).append (wakeup_nested false id)

/-! ### Spinning -/

theorem bounded_guarded {r : Lock} {m : LockMode} {as : Code} :
    Bounded order n (guarded r m as) ↔ Bounded order n as := by
  simp [guarded, Action.Bounded]

theorem println_bounded {args : Code} (h : Bounded order n args) :
    Bounded order n (println env args) := by
  unfold println
  split_ifs
  · exact bounded_guarded.mpr h
  · exact bounded_nil

@[simp] theorem println_nil_bounded : Bounded order n (println env []) :=
  println_bounded bounded_nil

@[simp] theorem debugSetPixel_bounded : Bounded order n debugSetPixel := by
  simp [debugSetPixel, bounded_guarded, Action.Bounded]

@[simp] theorem heapAlloc_bounded : Bounded order n heapAlloc := by
  simp [heapAlloc, bounded_guarded, Action.Bounded]

@[simp] theorem earlyAlloc_bounded : Bounded order n earlyAlloc := by
  simp [earlyAlloc, bounded_guarded, Action.Bounded]

@[simp] theorem palloc_bounded : Bounded order n palloc := by
  simp [palloc, bounded_guarded, Action.Bounded]

@[simp] theorem vmap_bounded (tables : ℕ) : Bounded order n (vmap tables) := by
  simp [vmap, bounded_guarded, Action.Bounded, bounded_flatMap]

@[simp] theorem valloc_bounded (pages : List ℕ) : Bounded order n (valloc pages) := by
  simp [valloc, bounded_flatMap]

/-- The bootstrap core does not spin before it wakes up. -/
theorem start_bounded : Bounded order 0 (start env) := by
  have husable (usable : Bool) : Bounded order 0 (if usable then earlyAlloc else []) := by
    cases usable <;> simp
  have hinserted (inserted : Bool) :
      Bounded order 0 (if inserted then println env [] ++ heapAlloc else []) := by
    cases inserted <;> simp
  have hmemory : Bounded order 0 (startMemory env) := by
    simp [startMemory, memInit, earlyHeapInit, physInit, vcacheInit, mapperInit, mapHeader,
      removeIdentity, heapInit, bounded_guarded, Action.Bounded, bounded_flatMap, husable]
  have htables : Bounded order 0 (startTables env) := by
    simp [startTables, interruptsInit, initrdInit, consoleInit, cfgtbInit, bounded_guarded,
      Action.Bounded, bounded_flatMap, hinserted]
  have hentry (entry : MadtEntry) : Bounded order 0 (acpiEntry env entry) := by
    cases entry <;> simp [acpiEntry, bounded_guarded, Action.Bounded]
  have hwork (work : AcpiWork) : Bounded order 0 (acpiWork env work) := by
    cases work <;> simp [acpiWork, bounded_guarded, Action.Bounded, bounded_flatMap, hentry,
      println_bounded]
  simp [start, hmemory, htables, acpiInit, bounded_flatMap, hwork]

theorem ignite_bounded : Bounded order 0 (ignite env) := by
  simp [ignite, igniteTables, gdtInit, numcores, bounded_guarded, Action.Bounded]

theorem wakeup_bounded (hn : n ≤ 3) {primary : Bool} {id : ℕ}
    (hmap : Bounded order n (mapLapic env primary))
    (hlate : Bounded order n (lateIgnition env primary)) :
    Bounded order n (wakeup env primary id) := by
  have hcalib : Bounded order n (pitCalibSleep env id) := by
    unfold pitCalibSleep
    split_ifs <;> simp [bounded_guarded, Action.Bounded]
  have hapic : Bounded order n (apicInit env primary id) := by
    unfold apicInit
    split_ifs <;> simp [hmap, hcalib, bounded_guarded, Action.Bounded]
  simp [wakeup, wakeupEntry, register, procInstance, hapic, interruptsLoad, syscallEnable, hlate,
    bounded_guarded, Action.Bounded, order, hn]

variable (env) in
theorem coreCode_bounded (bspid id : ℕ) :
    Bounded order (if id = bspid then 0 else 3) (coreCode env bspid id) := by
  unfold coreCode
  split_ifs
  · have hwakeup : Bounded order 0 (wakeup env true id) :=
      wakeup_bounded (by decide) (by simp [mapLapic, Action.Bounded])
        (by simp [lateIgnition, Action.Bounded])
    exact bounded_append.mpr ⟨bounded_append.mpr ⟨start_bounded, ignite_bounded⟩, hwakeup⟩
  · have hwakeup : Bounded order 3 (wakeup env false id) :=
      wakeup_bounded (by decide) (by simp [mapLapic, Action.Bounded, order])
        (by simp [lateIgnition, Action.Bounded, order])
    exact bounded_append.mpr ⟨by simp [Action.Bounded, order], hwakeup⟩

variable (env) in
/-- The bootstrap core sets all the flags that the others spin on. -/
theorem set_mem_coreCode (bspid : ℕ) {k : Cell} (hk : order k < 3) :
    .set k ∈ coreCode env bspid bspid := by
  have hignition : .set .IGNITION ∈ ignite env := by simp [ignite]
  have hmapped : .set .MAPPED ∈ apicInit env true bspid := by simp [apicInit, mapLapic]
  have hlate : .set .LATE_IGNITION ∈ lateIgnition env true := by simp [lateIgnition]
  rw [coreCode, if_pos rfl]
  cases k <;> simp_all [order, wakeup]

end Order

/-! ## The boot -/

section Machine

variable {env : BootEnv} {bspid : ℕ} {cores : Finset ℕ} {s : State ℕ Cell Lock} {es : List ℕ}

variable (env bspid cores) in
theorem machine_sound : Sound (publishes env)
    (fun id => knows (publishes env) ∅ (if id ∈ cores then coreCode env bspid id else []))
    (machine env bspid cores) := by
  refine Sound.start fun id => ?_
  split_ifs
  · exact (coreCode_disciplined env bspid id).1
  · trivial

theorem machine_live (hbsp : bspid ∈ cores) : Live rank order (machine env bspid cores) := by
  refine Live.start (fun id => ?_) (fun id => ?_) fun id k hk => ⟨bspid, ?_⟩
  · split_ifs
    · exact coreCode_nested env bspid id
    · exact Nested.nil
  · split_ifs
    · exact (coreCode_bounded env bspid id).awaitOrder
    · trivial
  · split_ifs at hk with hid
    · have hlt : order k < if id = bspid then 0 else 3 := (coreCode_bounded env bspid id).all _ hk
      rw [if_pos hbsp]
      refine set_mem_coreCode env bspid (Nat.lt_of_lt_of_le hlt ?_)
      split_ifs <;> decide
    · cases hk

/-- **The boot does not fail.**  However the cores interleave, none of them unwraps a `Once` that is
empty, and none touches a table or a register page before it is mapped.  A core that has reached the
event loop finds set up all that a timer interrupt or a system call relies on, its own part and that
of the bootstrap core.  And no lock is held in two modes that exclude each other: only one core at a
time measures with the interval timer. -/
theorem boot_never_fails (hrun : Run Step (machine env bspid cores) es s) :
    s.failed = ∅ ∧ (∀ id ∈ cores, s.rest id = [] → ready id ⊆ s.cells) ∧
      ∀ r, Excludes (s.Holds r) := by
  have hsound := (machine_sound env bspid cores).run hrun
  refine ⟨hsound.failed, fun id hid hrest => ?_, (machine_sound env bspid cores).excludes
    (fun _ => rfl) hrun⟩
  have hgoal := hsound.goal_of_nil hrest
  rw [if_pos hid] at hgoal
  exact (coreCode_disciplined env bspid id).2.trans hgoal

/-- **The boot comes to its end.**  No run is longer than the code of the cores, and a run that
cannot go on has led all cores into the event loop: no core waits forever for a flag or a lock. -/
theorem boot_completes (hbsp : bspid ∈ cores) (hrun : Run Step (machine env bspid cores) es s) :
    es.length ≤ ∑ id ∈ cores, (coreCode env bspid id).length ∧
      ((∀ id s', ¬ Step s id s') → ∀ id ∈ cores, s.rest id = []) := by
  have hsound := machine_sound env bspid cores
  have hidle : ∀ id ∉ cores, (machine env bspid cores).rest id = [] := fun id hid => if_neg hid
  have hlength := hsound.length_add_left hidle hrun
  refine ⟨?_, fun hstuck id _ => Classical.byContradiction fun hbusy => ?_⟩
  · have hleft : left cores (machine env bspid cores) = ∑ id ∈ cores,
        (coreCode env bspid id).length :=
      Finset.sum_congr rfl fun id hid => congrArg List.length (if_pos hid)
    omega
  · obtain ⟨id', s', hstep⟩ := ((machine_live hbsp).run hsound hrun).progress rank_lt hbusy
    exact hstuck id' s' hstep

end Machine

/-! ## A machine with two cores -/

/-- A virtual machine with two cores, an I/O APIC and an NMI source. -/
def twoCores : BootEnv where
  isvm := true
  mmap := [false, true, true]
  vcacheTables := 6
  headerTables := 3
  heapTables := [3, 0, 0, 0, 0, 0, 0, 0]
  initrdTables := 3
  initrd := [true, false, true]
  acpi := [.mapTable [3], .mapTable [0, 0],
    .madt [.localApic, .localApic, .ioApic 2, .localApicNmi],
    .mapTable [0], .noHandler]
  ktables := fun _ => [3]
  lapicTables := 2
  early := fun id => id = 1

/-- Both cores can be led into the event loop. -/
theorem twoCores_run : ∃ es s, Run Step (machine twoCores 0 {0, 1}) es s ∧ ∀ id, s.rest id = [] :=
  (machine_live (by decide)).completes (machine_sound twoCores 0 {0, 1}) rank_lt fun _ hid =>
    if_neg hid

/-- A virtual machine with two cores comes up, and both are ready. -/
theorem boot_never_fails_twoCores : ∃ es s, Run Step (machine twoCores 0 {0, 1}) es s ∧
    s.failed = ∅ ∧ ready 0 ⊆ s.cells ∧ ready 1 ⊆ s.cells := by
  obtain ⟨es, s, hrun, hend⟩ := twoCores_run
  obtain ⟨hfailed, hready, -⟩ := boot_never_fails hrun
  exact ⟨es, s, hrun, hfailed, hready 0 (by decide) (hend 0), hready 1 (by decide) (hend 1)⟩

/-- Such a run ends. -/
theorem boot_completes_twoCores : 0 ∈ ({0, 1} : Finset ℕ) ∧
    ∃ es s, Run Step (machine twoCores 0 {0, 1}) es s ∧ s.rest 0 = [] ∧ s.rest 1 = [] ∧
      es.length ≤ ∑ id ∈ {0, 1}, (coreCode twoCores 0 id).length := by
  refine ⟨by decide, ?_⟩
  obtain ⟨es, s, hrun, hend⟩ := twoCores_run
  exact ⟨es, s, hrun, hend 0, hend 1, (boot_completes (by decide) hrun).1⟩

end HeliumOS.Proc.Boot
