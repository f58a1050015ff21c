import HeliumOS.Proc.Image
import HeliumOS.Proc.Steps
import Mathlib.Data.List.TakeWhile

/-!
# Progress

With enough free frames a task without segments is created, and the mappings of a task are
installed, without a panic.

- `exec_ensures` and `applyMappings_ensures` say how many frames are enough.
- `continueCurrent_installs`, `continueCurrent_skips` and `exitCurrent_safe` are the steps that
  follow.
-/

namespace HeliumOS.Proc

open HeliumOS.Lib HeliumOS.Lib.AllocProg HeliumOS.Mem HeliumOS.Mem.Virt HeliumOS.Elf

variable {M F F' : Set PhysFrame} {vm vm' : Vm} {m n : ℕ}

/-! ## Releases -/

theorem pfreeAll_safe (frames : List PhysFrame) : Safe M (pfreeAll frames) F := by
  induction frames generalizing F with
  | nil => exact safe_pure _
  | cons frame frames ih => exact safe_bind safe_put fun _ _ _ => ih

theorem arcDrop_safe (r : TaskRef) (sys : System) : Safe M (arcDrop r sys) F := by
  simp only [arcDrop]
  split
  · rw [dropMappings_eq]
    exact safe_bind (pfreeAll_safe _) fun _ _ _ => safe_pure _
  · exact safe_pure _

/-! ## Mapping -/

/-- With three free frames for each mapping, `MemoryMap::apply` installs a map. -/
theorem applyMappings_ensures {ms : List MemoryMapping} (h : Workable (m + 3 * ms.length) vm F)
    (hwf : ∀ x ∈ ms, x.Wf) : Ensures M (applyMappings ms vm) F (Workable m) := by
  induction ms generalizing vm F with
  | nil => exact ensures_pure h
  | cons x ms ih =>
    have hx := hwf x List.mem_cons_self
    rw [List.length_cons, Nat.mul_succ, ← Nat.add_assoc] at h
    refine (ensures_lift (a := pageSize) (Q := fun size F' => size = pageSize ∧ F' = F) ?_
      ⟨rfl, rfl⟩).bind ?_
    · rw [hx.single]
      rfl
    · rintro _ _ ⟨rfl, rfl⟩
      exact (h.vmapExpect (not_inArea_of_isUser hx.user) hx.small).bind fun vm₁ F₁ h₁ =>
        ih h₁ fun y hy => hwf y (List.mem_cons_of_mem _ hy)

/-! ## The stack -/

theorem allocateFrom_ensures {vadr : Page} {flags : PageTableFlags} {i : ℕ}
    {frames : List PhysFrame} {map : MemoryMap} (hfree : HasFree (m + n) F)
    (hpages : ∀ k, i ≤ k → k < i + n → ∃ q, vadr.add k = .ok q) :
    Ensures M (MemoryMap.allocateFrom vadr flags n i frames map) F
      fun res F' => res.1 ≠ none ∧ HasFree m F' := by
  induction n generalizing i frames map F with
  | zero => exact ensures_pure ⟨by simp, hfree⟩
  | succ n ih =>
    refine (ensures_get (n := m + n) (Q := fun r F' => ∃ f, r = some f ∧ HasFree (m + n) F') hfree
      fun f _ => ⟨f, rfl, hfree.sdiff f⟩).bind ?_
    rintro _ F₁ ⟨f, rfl, hfree₁⟩
    obtain ⟨q, hq⟩ := hpages i le_rfl (by omega)
    refine ensures_lift_bind hq ?_
    exact ih hfree₁ fun k hk hk' => hpages k (by omega) (by omega)

/-- The window of a core, as far as a region reaches. -/
theorem tmpStartPage_of_le {core offset : ℕ} (hcore : core ≤ 255) (hn : n ≤ 2 ^ 23 + 1)
    (hoffset : offset < pageSize) :
    ∃ page, tmpStartPage core = .ok page ∧ PagesExist page 0 n ∧
      page.startAddress + offset < 2 ^ 64 := by
  -- the windows of 256 cores end below the top of the address space
  have hnum : ∃ page : Page, page.num = TMP_TASKLDMAP.num + core * 8388608 ∧
      page.num + n < 2 ^ 52 := by
    have hlt : TMP_TASKLDMAP.num + core * 8388608 + n < 2 ^ 52 := by
      simp only [TMP_TASKLDMAP, kvmspace, pageSize]
      omega
    refine ⟨⟨TMP_TASKLDMAP.num + core * 8388608, .inr ⟨?_, by omega⟩⟩, rfl, hlt⟩
    simp only [TMP_TASKLDMAP, kvmspace, pageSize]
    omega
  obtain ⟨page, hpage, hlt⟩ := hnum
  refine ⟨page, ?_, fun k _ hk => ?_, ?_⟩
  · simp only [tmpStartPage, except_bind_eq_ok]
    refine ⟨core * TMP_TASK_SIZE_PER_PROC, checkedMul_eq_ok.mpr ⟨?_, rfl⟩, ?_⟩
    · simp only [TMP_TASK_SIZE_PER_PROC]
      omega
    · rw [Page.add_eq_ok, hpage]
      simp only [TMP_TASK_SIZE_PER_PROC, pageSize]
      omega
  -- the windows lie behind the area of the virtual cache
  · have hlo : kvmspace.num + p1PageCount ≤ page.num := by
      rw [hpage]
      simp only [TMP_TASKLDMAP, p1PageCount, pageSize]
      omega
    have hcanon := page.canonical
    refine ⟨⟨page.num + k, .inr ⟨?_, by omega⟩⟩, Page.add_eq_ok.mpr rfl, fun harea => ?_⟩
    · simp only [kvmspace, p1PageCount] at hlo
      omega
    · have := harea.2
      simp only at this
      omega
  · simp only [Page.startAddress, pageSize] at hoffset ⊢
    omega

theorem tmpLocalReserve_ensures {core offset : ℕ} {frames : List PhysFrame} (hcore : core ≤ 255)
    (hlen : frames.length ≤ 2 ^ 23 + 1) (hoffset : offset < pageSize)
    (h : Workable (m + 3 * frames.length) vm F) :
    Ensures M (tmpLocalReserve core offset frames vm) F fun res F' => Workable m res.2 F' := by
  obtain ⟨page, hpage, hpages, hlt⟩ := tmpStartPage_of_le hcore hlen hoffset
  refine ensures_lift_bind hpage ?_
  refine (h.vmapMany hpages (by decide)).bind fun vm₁ F₁ h₁ => ?_
  exact ensures_lift_bind (checkedAdd_eq_ok.mpr ⟨hlt, rfl⟩) (ensures_pure h₁)

/-- A region that fits into the window of a core needs one frame for each of its pages, and three
for the tables of each page of the window. -/
theorem Region.allocate_ensures {r : Region} {map : MemoryMap}
    (huser : r.vadr + r.memSize < USERSPACE_TOP) (hfree : HasFree (m + r.count) F) :
    Ensures M (map.allocate (.containing (newTruncate r.vadr)) r.count r.flags) F
      fun res F' => res.1 ≠ none ∧ HasFree m F' := by
  have hpages := Region.pages_le huser
  refine allocateFrom_ensures hfree fun k _ hk => ?_
  exact ⟨⟨r.first + k, .inl (by omega)⟩, Page.add_eq_ok.mpr (by rw [Region.page_eq huser])⟩

theorem fillRegion_ensures {core : ℕ} {r : Region} {map : MemoryMap} {vm₀ : Vm}
    {F₀ : Set PhysFrame} (hcore : core ≤ 255) (hwf : r.Wf)
    (hsize : r.memSize ≤ TMP_TASK_SIZE_PER_PROC) (h : Workable (m + 4 * r.count) vm F)
    (hload : Loading vm₀ vm F₀ F map) (hfresh₀ : Disjoint F₀ vm₀.tables) :
    Ensures M (fillRegion core r map vm) F
      fun res F' => res.1 = .ok () ∧ Workable m res.2.2 F' := by
  have hfree : HasFree (m + 3 * r.count + r.count) F := h.free.mono (by omega)
  -- one frame for each page, and three for the tables of its window
  refine (Region.allocate_ensures hwf.user hfree).and_returns.bind ?_
  rintro ⟨frames, map₁⟩ F₁ ⟨⟨hsome, hfree₁⟩, hret⟩
  rcases Region.allocate_spec hload hfresh₀ hwf.user hwf.small hret with
    ⟨new, rfl, hlen, hload₁, -, -, added, hadded, hplaces⟩ | ⟨rfl, -⟩
  · have hfresh₁ := hload₁.evolves.fresh hfresh₀
    have hcount : r.count ≤ 2 ^ 23 + 1 := by
      simp only [Region.count, Region.first, alignUp, pageSize, TMP_TASK_SIZE_PER_PROC] at hsize ⊢
      omega
    have hoffset : r.offset < pageSize := by
      simp only [Region.offset, Region.first, pageSize]
      omega
    rw [← hlen] at hcount hfree₁
    refine (tmpLocalReserve_ensures hcore hcount hoffset
      ⟨h.ready, hfresh₁, hfree₁⟩).and_returns.bind ?_
    rintro ⟨ptr, vm₂⟩ F₂ ⟨h₂, hwindow⟩
    obtain ⟨hev₂, -, page, hbacks, rfl⟩ := tmpLocalReserve_spec hload₁.evolves.inv hfresh₁ hwindow
    have hframes := disjoint_tables_of_taken (hload₁.step hev₂) (hplaces.mem_frames hadded)
    have hroom := r.offset_add_le
    -- both stores stay inside the window
    refine (h₂.storeBytes hbacks hframes (by rwa [List.length_replicate, hlen])).bind ?_
    rintro vm₃ F₃ ⟨h₃, hbacks₃, hframes₃⟩
    rw [if_neg (Nat.not_lt.mpr hwf.fits)]
    have hfits := hwf.fits
    refine (h₃.storeBytes hbacks₃ hframes₃ (by rw [hlen]; omega)).bind ?_
    rintro vm₄ F₄ ⟨h₄, -⟩
    exact ensures_pure ⟨rfl, h₄⟩
  · exact absurd rfl hsome

/-! ## Programs -/

end HeliumOS.Proc

namespace HeliumOS.Elf

open HeliumOS.Lib HeliumOS.Mem HeliumOS.Proc

instance (elf : ElfFile) (entry : ProgramHeader) : Decidable (elf.Accepts entry) :=
  decidable_of_iff (entry.align ≤ pageSize ∧ entry.vadr + entry.memSize < USERSPACE_TOP ∧
      entry.memSize ≤ TMP_TASK_SIZE_PER_PROC ∧ entry.offset + entry.fileSize < 2 ^ 64 ∧
      entry.offset + entry.fileSize ≤ elf.content.size)
    ⟨fun ⟨h₁, h₂, h₃, h₄, h₅⟩ => ⟨h₁, h₂, h₃, h₄, h₅⟩,
      fun h => ⟨h.align, h.user, h.window, h.word, h.present⟩⟩

/-- The regions that are loaded when no frame is missing: those of the `Load` headers before the
first one that is refused, and the stack. -/
def ElfFile.admitted (elf : ElfFile) : List Region :=
  (elf.loads.takeWhile fun entry => elf.Accepts entry).map elf.segment ++ [stackRegion]

/-- None of the `Load` headers of the list makes the loader panic.  The conditions on a header come
in the order of the checks, and a header that is refused hides those behind it. -/
def ElfFile.Harmless (elf : ElfFile) : List ProgramHeader → Prop
  | [] => True
  | entry :: rest =>
    entry.align ≤ pageSize →
      entry.vadr + entry.memSize < 2 ^ 64 ∧
      (entry.vadr + entry.memSize < USERSPACE_TOP → entry.memSize ≤ TMP_TASK_SIZE_PER_PROC →
        entry.offset + entry.fileSize < 2 ^ 64 ∧
        (entry.offset + entry.fileSize ≤ elf.content.size →
          entry.fileSize ≤ entry.memSize ∧ elf.Harmless rest))

/-- The addresses of the program headers can be computed. -/
def ElfFile.TableInMemory (elf : ElfFile) : Prop :=
  ∀ i < elf.header.phtLen, elf.content.base + elf.header.phoff + i * elf.header.phentSize < 2 ^ 64

section Checks

variable {elf : ElfFile} {entry : ProgramHeader} {rest : List ProgramHeader}

/-- A header is harmless when it is refused, or when it is accepted and its bytes fit. -/
theorem ElfFile.harmless_cons : elf.Harmless (entry :: rest) ↔
    (∃ e, elf.refusal entry = .ok (some e)) ∨
      elf.Accepts entry ∧ entry.fileSize ≤ entry.memSize ∧ elf.Harmless rest := by
  constructor
  · intro h
    -- the checks in the order of the loader; the first one that fails is the reason
    by_cases halign : pageSize < entry.align
    · exact .inl ⟨.largeAlignment entry.align, by rw [refusal, if_pos halign]⟩
    obtain ⟨hsum, h⟩ := h (Nat.not_lt.mp halign)
    have hstop : checkedAdd 64 Panic.loadOverflow entry.vadr entry.memSize =
        .ok (entry.vadr + entry.memSize) := checkedAdd_eq_ok.mpr ⟨hsum, rfl⟩
    by_cases huser : USERSPACE_TOP ≤ entry.vadr + entry.memSize
    · refine .inl ⟨.insecureLoad entry.vadr entry.memSize, ?_⟩
      rw [refusal, if_neg halign, hstop, except_ok_bind, if_pos huser]
    by_cases hwindow : TMP_TASK_SIZE_PER_PROC < entry.memSize
    · refine .inl ⟨.largeSize entry.memSize, ?_⟩
      rw [refusal, if_neg halign, hstop, except_ok_bind, if_neg huser, if_pos hwindow]
    obtain ⟨hword, h⟩ := h (Nat.not_le.mp huser) (Nat.not_lt.mp hwindow)
    by_cases hpresent : elf.content.size < entry.offset + entry.fileSize
    · refine .inl ⟨.binaryEnd entry.offset entry.fileSize, ?_⟩
      rw [refusal, if_neg halign, hstop, except_ok_bind, if_neg huser, if_neg hwindow,
        checkedAdd_eq_ok.mpr ⟨hword, rfl⟩, except_ok_bind, if_pos hpresent]
    · exact .inr ⟨⟨Nat.not_lt.mp halign, Nat.not_le.mp huser, Nat.not_lt.mp hwindow, hword,
        Nat.not_lt.mp hpresent⟩, h (Nat.not_lt.mp hpresent)⟩
  -- conversely, a refusal shows that the sums before it did not overflow
  · rintro (⟨e, hrefusal⟩ | ⟨haccepts, hrest⟩)
    · intro halign
      rw [refusal, if_neg (Nat.not_lt.mpr halign)] at hrefusal
      simp only [except_bind_eq_ok, checkedAdd_eq_ok] at hrefusal
      obtain ⟨_, ⟨hsum, rfl⟩, hrefusal⟩ := hrefusal
      refine ⟨hsum, fun huser hwindow => ?_⟩
      rw [if_neg (Nat.not_le.mpr huser), if_neg (Nat.not_lt.mpr hwindow)] at hrefusal
      simp only [except_bind_eq_ok, checkedAdd_eq_ok] at hrefusal
      obtain ⟨_, ⟨hword, rfl⟩, hrefusal⟩ := hrefusal
      refine ⟨hword, fun hpresent => ?_⟩
      rw [if_neg (Nat.not_lt.mpr hpresent)] at hrefusal
      cases hrefusal
    · have huser := haccepts.user
      simp only [USERSPACE_TOP] at huser
      exact fun _ => ⟨by omega, fun _ _ => ⟨haccepts.word, fun _ => hrest⟩⟩

theorem ElfFile.harmless_of_forall {loads : List ProgramHeader}
    (h : ∀ entry ∈ loads, elf.Accepts entry ∧ entry.fileSize ≤ entry.memSize) :
    elf.Harmless loads := by
  induction loads with
  | nil => trivial
  | cons entry rest ih =>
    obtain ⟨haccepts, hfits⟩ := h entry List.mem_cons_self
    exact harmless_cons.mpr
      (.inr ⟨haccepts, hfits, ih fun entry' hentry => h entry' (List.mem_cons_of_mem _ hentry)⟩)

theorem ElfFile.progHeader_eq {index : ℕ} (htable : elf.TableInMemory)
    (hindex : index < elf.header.phtLen) : elf.progHeader index =
      .ok (.read elf.content (elf.header.phoff + index * elf.header.phentSize)) := by
  have hlt := htable index hindex
  rw [progHeader, checkedAdd_eq_ok.mpr ⟨by omega, rfl⟩, except_ok_bind,
    checkedAdd_eq_ok.mpr ⟨by omega, rfl⟩, except_ok_bind]

end Checks

end HeliumOS.Elf

namespace HeliumOS.Proc

open HeliumOS.Lib HeliumOS.Lib.AllocProg HeliumOS.Mem HeliumOS.Mem.Virt HeliumOS.Elf

variable {M F F' : Set PhysFrame} {vm vm' : Vm} {m n : ℕ}

theorem segment_wf {elf : ElfFile} {entry : ProgramHeader} (haccepts : elf.Accepts entry)
    (hfits : entry.fileSize ≤ entry.memSize) : (elf.segment entry).Wf where
  user := haccepts.user
  fits := by simpa [ElfFile.segment] using hfits
  small := memoryFlags_small entry

/-- The loop over harmless headers ends without a panic, and without an error when every header is
accepted. -/
theorem loadFrom_ensures {core : ℕ} {elf : ElfFile} {index : ℕ} {map : MemoryMap} {vm₀ : Vm}
    {F₀ : Set PhysFrame} (hcore : core ≤ 255) (htable : elf.TableInMemory)
    (hindex : index + n ≤ elf.header.phtLen)
    (hharmless : elf.Harmless ((elf.headersFrom n index).filter ProgramHeader.isLoad))
    (h : Workable
      (m + 4 * pageTotal ((((elf.headersFrom n index).filter ProgramHeader.isLoad).takeWhile
      fun entry => elf.Accepts entry).map elf.segment)) vm F)
    (hload : Loading vm₀ vm F₀ F map) (hfresh₀ : Disjoint F₀ vm₀.tables) :
    Ensures M (loadFrom core elf n index map vm) F fun res F' =>
      (res.1 = .ok () → Workable m res.2.2 F') ∧
        ((∀ entry ∈ (elf.headersFrom n index).filter ProgramHeader.isLoad, elf.Accepts entry) →
          res.1 = .ok ()) := by
  induction n generalizing index map vm F with
  | zero => exact ensures_pure ⟨fun _ => h, fun _ => rfl⟩
  | succ n ih =>
    rw [ElfFile.headersFrom, List.range'_succ, List.map_cons] at h hharmless ⊢
    rw [loadFrom, ElfFile.progHeader_eq htable (by omega), liftM_ok, mk_pure_bind]
    generalize ProgramHeader.read elf.content
      (elf.header.phoff + index * elf.header.phentSize) = entry at h hharmless ⊢
    split_ifs with hisLoad
    · rw [List.filter_cons_of_pos hisLoad] at h hharmless ⊢
      rw [loadSegment_eq]
      obtain ⟨e, hrefusal⟩ | ⟨haccepts, hfits, hrest⟩ := ElfFile.harmless_cons.mp hharmless
      · -- the header is refused, and that is the end
        rw [hrefusal]
        refine ensures_pure ⟨fun hok => (by cases hok), fun hall => ?_⟩
        have hnone := ElfFile.refusal_eq_none.mpr (hall entry List.mem_cons_self)
        cases hrefusal.symm.trans hnone
      · -- the frames for this segment, and those for the headers that are left
        rw [List.takeWhile_cons_of_pos (by simpa using haccepts), List.map_cons, pageTotal,
          List.map_cons, List.sum_cons, Nat.mul_add, Nat.add_comm (4 * _), ← Nat.add_assoc] at h
        rw [ElfFile.refusal_eq_none.mpr haccepts]
        refine (fillRegion_ensures hcore (segment_wf haccepts hfits) haccepts.window h hload
          hfresh₀).and_returns.bind ?_
        rintro ⟨r, map₁, vm₁⟩ F₁ ⟨⟨rfl, h₁⟩, hret⟩
        have hleaves :=
          (fillRegion_spec hload hfresh₀ haccepts.user (memoryFlags_small entry) hret).1
        refine (ih (by omega) hrest h₁ hleaves).mono fun res F' hpost => ⟨hpost.1, fun hall => ?_⟩
        exact hpost.2 fun entry' hentry => hall entry' (List.mem_cons_of_mem _ hentry)
    · rw [List.filter_cons_of_neg hisLoad] at h hharmless ⊢
      exact ih (by omega) hharmless h hload

/-- With four free frames for each page of its admitted regions, a harmless file does not make the
loader panic. -/
theorem load_ensures_of_harmless {core : ℕ} {elf : ElfFile} (hcore : core ≤ 255)
    (htable : elf.TableInMemory) (hharmless : elf.Harmless elf.loads)
    (h : Workable (m + 4 * pageTotal elf.admitted) vm F) :
    Ensures M (load core elf vm) F fun res F' =>
      (res.1 = .ok () → Workable m res.2.2 F') ∧
        ((∀ entry ∈ elf.loads, elf.Accepts entry) → res.1 = .ok ()) := by
  have hfrom : Workable (m + 4 * stackRegion.count + 4 * pageTotal
      ((elf.loads.takeWhile fun entry => elf.Accepts entry).map elf.segment)) vm F := by
    rw [ElfFile.admitted, pageTotal_append, pageTotal_singleton] at h
    exact h.mono (by omega)
  refine (loadFrom_ensures hcore htable (by omega) hharmless hfrom (.new h.ready.inv F)
    h.fresh).and_returns.bind ?_
  rintro ⟨r, map₁, vm₁⟩ F₁ ⟨⟨hwork, hall⟩, hret⟩
  cases r with
  | error e => exact ensures_pure ⟨fun hok => (by cases hok), fun h => (by cases hall h)⟩
  | ok u =>
    -- the stack
    have hload₁ := (loadInvariant_leaves core h.fresh).loadFrom (Loading.new h.ready.inv F) hret
    dsimp only
    rw [loadStack_eq]
    refine (fillRegion_ensures hcore stackRegion_wf (by decide) (hwork rfl) hload₁ h.fresh).mono ?_
    exact fun res F' hpost => ⟨fun _ => hpost.2, fun _ => hpost.1⟩

/-- A file whose headers can be read and whose segments the loader accepts. -/
structure Loadable (elf : ElfFile) : Prop where
  table : ∀ i < elf.header.phtLen,
    elf.content.base + elf.header.phoff + i * elf.header.phentSize < 2 ^ 64
  align : ∀ entry ∈ elf.loads, entry.align ≤ pageSize
  user : ∀ entry ∈ elf.loads, entry.vadr + entry.memSize < USERSPACE_TOP
  window : ∀ entry ∈ elf.loads, entry.memSize ≤ TMP_TASK_SIZE_PER_PROC
  present : ∀ entry ∈ elf.loads, entry.offset + entry.fileSize < 2 ^ 64 ∧
    entry.offset + entry.fileSize ≤ elf.content.size
  fits : ∀ entry ∈ elf.loads, entry.fileSize ≤ entry.memSize

theorem Loadable.accepts {elf : ElfFile} (h : Loadable elf) :
    ∀ entry ∈ elf.loads, elf.Accepts entry :=
  fun entry hentry => ⟨h.align entry hentry, h.user entry hentry, h.window entry hentry,
    (h.present entry hentry).1, (h.present entry hentry).2⟩

theorem Loadable.admitted_eq {elf : ElfFile} (h : Loadable elf) : elf.admitted = elf.regions := by
  rw [ElfFile.admitted, ElfFile.regions, List.takeWhile_eq_self_iff.mpr]
  intro entry hentry
  simpa using h.accepts entry hentry

/-- With four free frames for each page of its regions, a file is loaded. -/
theorem load_ensures {core : ℕ} {elf : ElfFile} (hcore : core ≤ 255) (helf : Loadable elf)
    (h : Workable (m + 4 * pageTotal elf.regions) vm F) :
    Ensures M (load core elf vm) F fun res F' =>
      res.1 = .ok () ∧ Workable m res.2.2 F' ∧
        Run (Fills M core) (.new, vm, F) elf.regions (res.2.1, res.2.2, F') := by
  have hharmless : elf.Harmless elf.loads :=
    ElfFile.harmless_of_forall fun entry hentry =>
      ⟨helf.accepts entry hentry, helf.fits entry hentry⟩
  rw [← helf.admitted_eq] at h
  refine (load_ensures_of_harmless hcore helf.table hharmless h).and_returns.mono ?_
  rintro ⟨r, map', vm'⟩ F' ⟨⟨hwork, hall⟩, hret⟩
  obtain rfl : r = .ok () := hall helf.accepts
  exact ⟨rfl, hwork rfl, (load_fills hret).2⟩

/-- The file becomes a task. -/
theorem exec_loads {core : ℕ} {elf : ElfFile} {sys : System} (hcore : core ≤ 255)
    (helf : Loadable elf) (hids : sys.idCount + 1 < 2 ^ 64)
    (h : Workable (m + 4 * pageTotal elf.regions) sys.vm F) :
    Ensures M (exec core elf sys) F fun res F' => ∃ map vm,
      res = (.success (sys.idCount + 1), { sys with vm }.push (.new elf.header.entrypoint) map) ∧
      Workable m vm F' ∧ Run (Fills M core) (.new, sys.vm, F) elf.regions (map, vm, F') := by
  refine (load_ensures hcore helf h).bind ?_
  rintro ⟨r, map, vm₁⟩ F₁ ⟨rfl, h₁, hrun⟩
  have hnew : newLocked (.new elf.header.entrypoint) map { sys with vm := vm₁ } =
      .ok (sys.idCount + 1, { sys with vm := vm₁ }.push (.new elf.header.entrypoint) map) :=
    newLocked_eq_ok.mpr ⟨hids, rfl, rfl⟩
  exact ensures_lift_bind hnew (ensures_pure ⟨map, vm₁, rfl, h₁, hrun⟩)

/-! ## Tasks without segments -/

/-- A program without program headers gets its stack and becomes a task. -/
theorem exec_ensures {core : ℕ} {elf : ElfFile} {sys : System} (hcore : core ≤ 255)
    (hempty : elf.header.phtLen = 0) (hids : sys.idCount + 1 < 2 ^ 64)
    (h : Workable (m + 512) sys.vm F) :
    Ensures M (exec core elf sys) F fun res F' => ∃ map vm,
      res = (.success (sys.idCount + 1), { sys with vm }.push (.new elf.header.entrypoint) map) ∧
      Workable m vm F' ∧ Loading sys.vm vm F F' map ∧ map.mappings.length = 128 ∧
      ∃ x ∈ map.mappings, x.vadr = USERSTACK_TOP := by
  have hloads : elf.loads = [] := by rw [ElfFile.loads, ElfFile.headersFrom, hempty]; rfl
  have hregions : elf.regions = [stackRegion] := by rw [ElfFile.regions, hloads]; rfl
  have helf : Loadable elf := by
    refine ⟨fun i hi => by omega, ?_, ?_, ?_, ?_, ?_⟩ <;>
    · rw [hloads]
      simp
  have hpages : pageTotal elf.regions = 128 := by
    rw [hregions, pageTotal_singleton]
    decide
  refine (exec_loads hcore helf hids (by rwa [hpages])).mono ?_
  rintro res F' ⟨map, vm, rfl, h', hrun⟩
  have himage := imaged_of_run h.ready.inv h.fresh hrun
  -- the stack is the only region
  have howner : owner elf.regions USERSTACK_TOP.num = some stackRegion := by
    rw [hregions]
    exact owner_of_last [] (by decide) (by simp)
  obtain ⟨x, hx, -⟩ := himage.shown USERSTACK_TOP stackRegion howner
  obtain ⟨hmem, hvadr⟩ := MemoryMap.last_mem hx
  exact ⟨map, vm, rfl, h', himage.toLoading, himage.length.trans hpages, x, hmem, hvadr⟩

/-- The same against the allocator. -/
theorem exec_runs {core : ℕ} {elf : ElfFile} {sys : System} {pmm : PhysicalFrameAllocator}
    (hcore : core ≤ 255) (hempty : elf.header.phtLen = 0) (hids : sys.idCount + 1 < 2 ^ 64)
    (h : Able sys.vm pmm (m + 512)) :
    ∃ map vm pmm',
      (exec core elf sys).run PhysicalFrameAllocator.pool pmm =
        .ok ((.success (sys.idCount + 1), { sys with vm }.push (.new elf.header.entrypoint) map),
          pmm') ∧
      Able vm pmm' m ∧ Loading sys.vm vm pmm.free pmm'.free map ∧ map.mappings.length = 128 ∧
      ∃ x ∈ map.mappings, x.vadr = USERSTACK_TOP := by
  obtain ⟨_, pmm', hrun, hsound, hspace, map, vm, rfl, h', hrest⟩ :=
    h.run (exec_ensures hcore hempty hids (.of_able h))
  exact ⟨map, vm, pmm', hrun, h'.able hsound hspace, hrest⟩

/-- The mappings of a loaded map are installed. -/
theorem applyMappings_runs {ms : List MemoryMapping} {pmm : PhysicalFrameAllocator}
    (h : Able vm pmm (m + 3 * ms.length)) (hwf : ∀ x ∈ ms, x.Wf) :
    ∃ vm' pmm', (applyMappings ms vm).run PhysicalFrameAllocator.pool pmm = .ok (vm', pmm') ∧
      Able vm' pmm' m := by
  obtain ⟨vm', pmm', hrun, hsound, hspace, h'⟩ := h.run (applyMappings_ensures (.of_able h) hwf)
  exact ⟨vm', pmm', hrun, h'.able hsound hspace⟩

/-! ## Resuming and exit -/

section Steps

variable {core : ℕ} {sys : System} {pinfo : ProcInfo} {r : TaskRef} {pmm : PhysicalFrameAllocator}

/-- The exit of a task does not panic on a core that has an entry. -/
theorem exitCurrent_safe (hpinfo : sys.procs core = some pinfo) :
    Safe M (exitCurrent core sys) F := by
  refine safe_lift_bind (procInfo_eq_ok.mpr hpinfo) ?_
  split
  · exact safe_pure _
  · dsimp only
    split
    · exact arcDrop_safe _ _
    · exact safe_bind (arcDrop_safe _ _) fun _ _ _ => arcDrop_safe _ _

theorem continueCurrent_runs {sys' : System} {pmm' : PhysicalFrameAllocator} (resetTimer : Bool)
    (hpinfo : sys.procs core = some pinfo) (hr : pinfo.currentTask = some r)
    (happly : ((sys.task r).memoryMap.apply core sys).run PhysicalFrameAllocator.pool pmm =
      .ok (sys', pmm')) :
    (continueCurrent core resetTimer sys).run PhysicalFrameAllocator.pool pmm =
      .ok (((if resetTimer then [.timerReset (pinfo.scheduleQuantum % 2 ^ 32), .eoi] else [],
        .user r (sys'.task r).procstate), sys'), pmm') := by
  have hinfo : sys.procInfo core = .ok pinfo := procInfo_eq_ok.mpr hpinfo
  simp only [continueCurrent, run_bind, run_lift, hinfo, except_ok_bind, hr, happly]
  rfl

/-- A core without an active map installs that of its current task. -/
theorem continueCurrent_installs {pmm' : PhysicalFrameAllocator} (resetTimer : Bool)
    (hpinfo : sys.procs core = some pinfo) (hr : pinfo.currentTask = some r)
    (hactive : pinfo.activeMapping = none)
    (happly : (applyMappings (sys.task r).memoryMap.mappings sys.vm).run PhysicalFrameAllocator.pool
      pmm = .ok (vm, pmm')) :
    ∃ writes, (continueCurrent core resetTimer sys).run PhysicalFrameAllocator.pool pmm =
      .ok (((writes, .user r (sys.task r).procstate),
        System.setProc { sys with vm } core
          { pinfo with activeMapping := some (sys.task r).memoryMap.id }), pmm') := by
  have hinfo : sys.procInfo core = .ok pinfo := procInfo_eq_ok.mpr hpinfo
  have hmap : ((sys.task r).memoryMap.apply core sys).run PhysicalFrameAllocator.pool pmm =
      .ok (System.setProc { sys with vm } core
        { pinfo with activeMapping := some (sys.task r).memoryMap.id }, pmm') := by
    simp only [MemoryMap.apply, run_bind, run_lift, hinfo, except_ok_bind, hactive, reduceCtorEq,
      if_false, happly]
    rfl
  exact ⟨_, continueCurrent_runs resetTimer hpinfo hr hmap⟩

/-- A core whose active map has the identifier of the map of its task installs nothing. -/
theorem continueCurrent_skips (pmm : PhysicalFrameAllocator) (resetTimer : Bool)
    (hpinfo : sys.procs core = some pinfo) (hr : pinfo.currentTask = some r)
    (hactive : pinfo.activeMapping = some (sys.task r).memoryMap.id) :
    ∃ writes, (continueCurrent core resetTimer sys).run PhysicalFrameAllocator.pool pmm =
      .ok (((writes, .user r (sys.task r).procstate), sys), pmm) := by
  have hinfo : sys.procInfo core = .ok pinfo := procInfo_eq_ok.mpr hpinfo
  have hmap : ((sys.task r).memoryMap.apply core sys).run PhysicalFrameAllocator.pool pmm =
      .ok (sys, pmm) := by
    simp only [MemoryMap.apply, run_bind, run_lift, hinfo, except_ok_bind, hactive, if_true]
    rfl
  exact ⟨_, continueCurrent_runs resetTimer hpinfo hr hmap⟩

end Steps

/-! ## The smallest executable -/

/-- An executable of nothing but a file header. -/
def bareFile : File where
  base := 0
  size := 64
  mem k := [0x7f, 0x45, 0x4c, 0x46, 2, 1, 1, 0, 0, 0, 0, 0, 0, 0, 0, 0, 2, 0, 0x3e, 0, 1].getD k 0

def bareElf : ElfFile := ⟨.read bareFile, bareFile⟩

example : ElfFile.parse bareFile = some bareElf := rfl

end HeliumOS.Proc
