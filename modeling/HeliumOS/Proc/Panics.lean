import HeliumOS.Proc.Contents

/-!
# Files that Make the Loader Panic

The fields of a program header are words of the file.  `exec` adds them up with checked additions
before and between its checks, and copies the bytes of a segment without comparing their number
with the size of the segment.

- A harmless file (`ElfFile.Harmless`) does not make `exec` panic when there are enough frames
  (`exec_ensures_of_harmless`).
- A file on which `exec` returns is harmless (`harmless_of_exec`).
- Both together are `exec_returns_iff`.
-/

namespace HeliumOS.Proc

open HeliumOS.Lib HeliumOS.Lib.AllocProg HeliumOS.Mem HeliumOS.Mem.Virt HeliumOS.Elf

variable {M F F' : Set PhysFrame} {vm : Vm} {sys : System} {elf : ElfFile} {core m n : ℕ}

/-! ## Harmless files do not panic -/

/-- A harmless file becomes a task, or is refused. -/
theorem exec_ensures_of_harmless (hcore : core ≤ 255) (hids : sys.idCount + 1 < 2 ^ 64)
    (htable : elf.TableInMemory) (hharmless : elf.Harmless elf.loads)
    (h : Workable (4 * pageTotal elf.admitted) sys.vm F) :
    Ensures M (exec core elf sys) F fun _ _ => True := by
  rw [← Nat.zero_add (4 * _)] at h
  refine (load_ensures_of_harmless hcore htable hharmless h).bind ?_
  rintro ⟨r, map, vm₁⟩ F₁ -
  cases r with
  | error e =>
    have hdrop : Ensures M (dropMappings map.mappings) F₁ fun _ _ => True := by
      rw [dropMappings_eq]
      exact ⟨pfreeAll_safe _, fun _ _ _ => trivial⟩
    exact hdrop.bind fun _ _ _ => ensures_pure trivial
  | ok u =>
    have hnew : newLocked (.new elf.header.entrypoint) map { sys with vm := vm₁ } = .ok _ :=
      newLocked_eq_ok.mpr ⟨hids, rfl, rfl⟩
    exact ensures_lift_bind hnew (ensures_pure trivial)

/-! ## Files that do not panic are harmless -/

/-- With enough frames a region that does not panic is loaded, and its bytes fit. -/
theorem fillRegion_fits {r : Region} {map : MemoryMap} {res : Loaded}
    (huser : r.vadr + r.memSize < USERSPACE_TOP) (hfree : HasFree r.count F)
    (hret : Returns M (fillRegion core r map vm) F res F') : r.bytes.length ≤ r.memSize := by
  obtain ⟨map', -, halloc⟩ | ⟨map', vm', -, hfits, -⟩ := fillRegion_cases hret
  · -- the frames cannot run out
    rw [← Nat.zero_add r.count] at hfree
    exact absurd rfl ((Region.allocate_ensures huser hfree).post _ _ halloc).1
  · exact hfits

theorem loadFrom_harmless {index : ℕ} {map : MemoryMap} {res : Loaded} {vm₀ : Vm}
    {F₀ : Set PhysFrame} (hcore : core ≤ 255)
    (h : Workable
      (m + 4 * pageTotal ((((elf.headersFrom n index).filter ProgramHeader.isLoad).takeWhile
      fun entry => elf.Accepts entry).map elf.segment)) vm F)
    (hload : Loading vm₀ vm F₀ F map) (hfresh₀ : Disjoint F₀ vm₀.tables)
    (hret : Returns M (loadFrom core elf n index map vm) F res F') :
    elf.Harmless ((elf.headersFrom n index).filter ProgramHeader.isLoad) := by
  induction n generalizing index map vm F with
  | zero => trivial
  | succ n ih =>
    simp only [loadFrom, ElfFile.progHeader, returns_bind, returns_lift, except_bind_eq_ok] at hret
    obtain ⟨entry, _, ⟨⟨_, -, _, -, hentry⟩, rfl⟩, hret⟩ := hret
    rw [ElfFile.headersFrom, List.range'_succ, List.map_cons, Except.ok.inj hentry] at h ⊢
    split_ifs at hret with hisLoad
    · rw [List.filter_cons_of_pos hisLoad] at h ⊢
      rw [returns_bind] at hret
      obtain ⟨⟨r, map₁, vm₁⟩, F₁, hseg, hret⟩ := hret
      obtain ⟨e, hrefusal, -, -⟩ | ⟨haccepts, hfill⟩ := loadSegment_cases hseg
      · exact ElfFile.harmless_cons.mpr (.inl ⟨e, hrefusal⟩)
      · rw [List.takeWhile_cons_of_pos (by simpa using haccepts), List.map_cons, pageTotal,
          List.map_cons, List.sum_cons, Nat.mul_add, Nat.add_comm (4 * _), ← Nat.add_assoc] at h
        have hfits := fillRegion_fits haccepts.user (h.free.mono (by omega)) hfill
        rw [ElfFile.segment, List.length_map, List.length_range] at hfits
        -- the segment is loaded, so that the loop goes on with the frames that are left
        have hpost := (fillRegion_ensures hcore (segment_wf haccepts hfits) haccepts.window h hload
          hfresh₀).post _ _ hfill
        obtain rfl : r = .ok () := hpost.1
        have hleaves :=
          (fillRegion_spec hload hfresh₀ haccepts.user (memoryFlags_small entry) hfill).1
        exact ElfFile.harmless_cons.mpr (.inr ⟨haccepts, hfits, ih hpost.2 hleaves hret⟩)
    · rw [List.filter_cons_of_neg hisLoad] at h ⊢
      exact ih h hload hret

/-- Conversely, a file on which `exec` returns is harmless. -/
theorem harmless_of_exec {res : ExecResult × System} (hcore : core ≤ 255)
    (h : Workable (4 * pageTotal elf.admitted) sys.vm F)
    (hret : Returns M (exec core elf sys) F res F') : elf.Harmless elf.loads := by
  simp only [exec, load, returns_bind] at hret
  obtain ⟨_, _, ⟨_, _, hfrom, -⟩, -⟩ := hret
  rw [ElfFile.admitted, pageTotal_append, pageTotal_singleton, Nat.mul_add, Nat.add_comm] at h
  exact loadFrom_harmless hcore h (.new h.ready.inv F) h.fresh hfrom

/-! ## Exactly the harmless files -/

/-- The program headers lie inside the file, and the file inside the address space. -/
structure HeadersInside (elf : ElfFile) : Prop where
  headers : ∀ i < elf.header.phtLen,
    elf.header.phoff + i * elf.header.phentSize + 56 ≤ elf.content.size
  space : elf.content.base + elf.content.size ≤ 2 ^ 64

theorem HeadersInside.tableInMemory (h : HeadersInside elf) : elf.TableInMemory := by
  intro i hi
  have := h.headers i hi
  have := h.space
  omega

/-- With enough frames, any other file ends in a panic. -/
theorem exec_panics_of_not_harmless {pmm : PhysicalFrameAllocator} (hcore : core ≤ 255)
    (h : Able sys.vm pmm (4 * pageTotal elf.admitted)) (hnot : ¬ elf.Harmless elf.loads) :
    ∃ panic, (exec core elf sys).run PhysicalFrameAllocator.pool pmm = .error panic := by
  cases hrun : (exec core elf sys).run PhysicalFrameAllocator.pool pmm with
  | error panic => exact ⟨panic, rfl⟩
  | ok res =>
    obtain ⟨hret, -, -⟩ := run_returns PhysicalFrameAllocator.freeSet h.sound hrun
    exact absurd (harmless_of_exec hcore (.of_able h) hret) hnot

/-- **Panics of the loader.** With four free frames for each page that is loaded, `exec` returns
exactly on the harmless files. A `Load` header does harm by an address and a size, or an offset and
a size in the file, whose sum overflows, and by more bytes in the file than in memory, unless it or
an earlier header is refused first. -/
theorem exec_returns_iff {pmm : PhysicalFrameAllocator} (hcore : core ≤ 255)
    (hids : sys.idCount + 1 < 2 ^ 64) (hinside : HeadersInside elf)
    (h : Able sys.vm pmm (4 * pageTotal elf.admitted)) :
    (∃ res sys' pmm', (exec core elf sys).run PhysicalFrameAllocator.pool pmm =
      .ok ((res, sys'), pmm')) ↔ elf.Harmless elf.loads := by
  constructor
  · rintro ⟨res, sys', pmm', hrun⟩
    by_contra hnot
    obtain ⟨panic, hpanic⟩ := exec_panics_of_not_harmless hcore h hnot
    cases hrun.symm.trans hpanic
  · intro hharmless
    obtain ⟨⟨res, sys'⟩, pmm', hrun, -⟩ := h.run (exec_ensures_of_harmless hcore hids
      hinside.tableInMemory hharmless (.of_able h))
    exact ⟨res, sys', pmm', hrun⟩

/-- A program with two segments. -/
theorem exec_returns_shared : HeadersInside sharedElf ∧
    ∃ res sys' pmm', (exec 0 sharedElf bootSystem).run PhysicalFrameAllocator.pool freshPmm =
      .ok ((res, sys'), pmm') := by
  have hlen : sharedElf.header.phtLen = 2 := by decide +kernel
  have hinside : HeadersInside sharedElf := by
    refine ⟨?_, by decide⟩
    rw [hlen]
    decide +kernel
  have hable : Able bootSystem.vm freshPmm (4 * pageTotal sharedElf.admitted) := by
    rw [sharedElf_loadable.admitted_eq, sharedElf_pages]
    exact able_fresh.mono (by decide)
  have hharmless : sharedElf.Harmless sharedElf.loads :=
    ElfFile.harmless_of_forall fun entry hentry =>
    ⟨sharedElf_loadable.accepts entry hentry, sharedElf_loadable.fits entry hentry⟩
  exact ⟨hinside, (exec_returns_iff (Nat.zero_le 255) (by decide) hinside hable).mpr hharmless⟩

/-! ## Three files that cause a panic -/

/-- A file of 120 bytes: its header, and a `Load` header with the given words. -/
def segmentFile (offset vadr fileSize memSize : BitVec 64) : File where
  base := 0
  size := 120
  mem k := (
    [0x7f, 0x45, 0x4c, 0x46, 2, 1, 1, 0, 0, 0, 0, 0, 0, 0, 0, 0, 2, 0, 0x3e, 0, 1, 0, 0, 0] ++
    [0, 0x10, 0, 0, 0, 0, 0, 0, 64, 0, 0, 0, 0, 0, 0, 0, 0, 0, 0, 0, 0, 0, 0, 0] ++
    [0, 0, 0, 0, 64, 0, 56, 0, 1, 0, 0, 0, 0, 0, 0, 0] ++
    [1, 0, 0, 0, 5, 0, 0, 0] ++ (List.range 8).map (getByte offset) ++
    (List.range 8).map (getByte vadr) ++ [0, 0, 0, 0, 0, 0, 0, 0] ++
    (List.range 8).map (getByte fileSize) ++ (List.range 8).map (getByte memSize) ++
    [0, 0x10, 0, 0, 0, 0, 0, 0] : List (BitVec 8)).getD k 0

def segmentElf (offset vadr fileSize memSize : BitVec 64) : ElfFile :=
  ⟨.read (segmentFile offset vadr fileSize memSize), segmentFile offset vadr fileSize memSize⟩

/-- The address of the segment and its size add up to `2 ^ 64`. -/
def wrappingElf : ElfFile := segmentElf 0 0xfffffffffffff000 0 0x1000

/-- The offset of the segment and its size in the file add up to `2 ^ 64`. -/
def farElf : ElfFile := segmentElf 0xfffffffffffffff0 0x1000 16 16

/-- A segment of 8 bytes that has 16 bytes in the file. -/
def overfullElf : ElfFile := segmentElf 0 0x1000 16 8

theorem wrappingElf_loads :
    wrappingElf.loads = [⟨1, 5, 0, 0xfffffffffffff000, 0, 0x1000, 0x1000⟩] := by
  decide +kernel

theorem farElf_loads : farElf.loads = [⟨1, 5, 0xfffffffffffffff0, 0x1000, 16, 16, 0x1000⟩] := by
  decide +kernel

theorem overfullElf_loads : overfullElf.loads = [⟨1, 5, 0, 0x1000, 16, 8, 0x1000⟩] := by
  decide +kernel

/-- A verified file, with its headers inside it, on which `exec` panics on a machine with enough
free frames. -/
def PanicsFresh (elf : ElfFile) : Prop :=
  ElfFile.parse elf.content = some elf ∧ HeadersInside elf ∧
    Able bootSystem.vm freshPmm (4 * pageTotal elf.admitted) ∧
    ∃ panic, (exec 0 elf bootSystem).run PhysicalFrameAllocator.pool freshPmm = .error panic

theorem panicsFresh_of_not_harmless (hparse : ElfFile.parse elf.content = some elf)
    (hinside : HeadersInside elf) (hpages : 4 * pageTotal elf.admitted ≤ 4095)
    (hnot : ¬ elf.Harmless elf.loads) : PanicsFresh elf := by
  have hable : Able bootSystem.vm freshPmm (4 * pageTotal elf.admitted) := able_fresh.mono hpages
  exact ⟨hparse, hinside, hable, exec_panics_of_not_harmless (Nat.zero_le 255) hable hnot⟩

/-- Both sums and the copy can panic. -/
theorem exec_panics : PanicsFresh wrappingElf ∧ PanicsFresh farElf ∧ PanicsFresh overfullElf := by
  refine ⟨?_, ?_, ?_⟩
  · refine panicsFresh_of_not_harmless (ElfFile.parse_of_verify (by decide +kernel))
      ⟨by decide +kernel, by decide⟩ (by decide +kernel) ?_
    rw [wrappingElf_loads]
    exact fun h => absurd (h (by decide)).1 (by decide)
  · refine panicsFresh_of_not_harmless (ElfFile.parse_of_verify (by decide +kernel))
      ⟨by decide +kernel, by decide⟩ (by decide +kernel) ?_
    rw [farElf_loads]
    exact fun h => absurd ((h (by decide)).2 (by decide) (by decide)).1 (by decide)
  · refine panicsFresh_of_not_harmless (ElfFile.parse_of_verify (by decide +kernel))
      ⟨by decide +kernel, by decide⟩ (by decide +kernel) ?_
    rw [overfullElf_loads]
    exact fun h => absurd (((h (by decide)).2 (by decide) (by decide)).2 (by decide)).1 (by decide)

end HeliumOS.Proc
