import HeliumOS.Acpi.Tables
import HeliumOS.Mem.Data

/-!
# Mapping the ACPI Tables

`getvadr` and `map_table` of `acpi/mod.rs`: tables are mapped one behind the other from
`TABLE_VBASE` on.  A cache remembers the page of the first frame of every table, and a table whose
first frame is known is not mapped again.

- `tableFrame` is what the pages behind `TABLE_VBASE` show, and `loadByte_table` what is read there.
- `MapsFrames` is what a call of `vmap` does to these pages.  Pages outside its range show what they
  have shown before (`MapsFrames.tableFrame_eq`).
- `mapTable_maps`: a table gets as many pages as its length needs from the start of a page on,
  wherever in the page it starts.
- `mapTable_ensures`: with three free frames for each page the call returns.
-/

namespace HeliumOS.Acpi

open HeliumOS.Lib HeliumOS.Lib.AllocProg HeliumOS.Mem HeliumOS.Mem.Virt

/-! ## Definitions -/

/-- The page of `TABLE_VBASE`, 1 TiB and 768 GiB into the kernel half. -/
def TABLE_VBASE : Page :=
  ⟨kvmspace.num + (1024 * 1024 * 1024 * 1024 + 768 * 1024 * 1024 * 1024) / pageSize, by decide⟩

/-- The variables of `acpi::init`, and virtual memory. -/
structure AcpiState where
  vm : Vm
  vmemmap : PhysFrame → Option Page
  pgindex : ℕ

/-- The state at the start of `acpi::init`. -/
def AcpiState.new (vm : Vm) : AcpiState := ⟨vm, fun _ => none, 0⟩

/-- What is behind a virtual address. -/
def viewAt (vm : Vm) (adr : ℕ) : View := fun k => loadByte vm (adr + k)

/-- `map_table`.  The result is the virtual address of the table. -/
def mapTable (padr : ℕ) (s : AcpiState) : Kernel (ℕ × AcpiState) := do
  let frame ← frameContaining padr
  let page ← TABLE_VBASE.add s.pgindex
  let vm ← vmapExpect .acpiMap s.vm page frame pageSize .empty
  let table := page.startAddress + padr % pageSize
  let alignedSize := alignUp (← AcpiHeader.len (viewAt vm table)) pageSize
  let vmemmap := Function.update s.vmemmap frame (some page)
  if pageSize < alignedSize then do
    let rest := alignedSize - pageSize
    let vm ← vmapExpect .acpiMap vm (← page.add 1) (← frame.add 1) rest .empty
    return (table, ⟨vm, vmemmap, s.pgindex + 1 + rest / pageSize⟩)
  else return (table, ⟨vm, vmemmap, s.pgindex + 1⟩)

/-- `getvadr`. -/
def getvadr (padr : ℕ) (s : AcpiState) : Kernel (ℕ × AcpiState) := do
  let frame ← frameContaining padr
  match s.vmemmap frame with
  | some page => return (page.startAddress + padr % pageSize, s)
  | none => mapTable padr s

/-- The length field of the table at a physical address. -/
def tableLen (m : ByteMemory) (padr : ℕ) : ℕ := leNat (m.slice (padr + 4) 4)

/-- How many pages a table of this length gets. -/
def tablePages (len : ℕ) : ℕ := max 1 (alignUp len pageSize / pageSize)

theorem tablePages_pos (len : ℕ) : 0 < tablePages len := lt_max_of_lt_left Nat.one_pos

/-! ## The pages of the tables -/

/-- The number of the frame behind the page with index `i` from `TABLE_VBASE` on. -/
def tableFrame (vm : Vm) (i : ℕ) : Option ℕ :=
  match TABLE_VBASE.add i with
  | .ok q => (vm.translate q).map fun t => t.frame.num
  | .error _ => none

/-- The address of a table that starts like `padr` does in the page with index `i`. -/
def tableAdr (i padr : ℕ) : ℕ := TABLE_VBASE.startAddress + i * pageSize + padr % pageSize

/-- The pages behind `TABLE_VBASE` with indices from `i` on, `n` of them. -/
def tableArea (i n : ℕ) : Set Page :=
  {q | TABLE_VBASE.num + i ≤ q.num ∧ q.num < TABLE_VBASE.num + i + n}

theorem mem_tableArea {q : Page} {i n : ℕ} :
    q ∈ tableArea i n ↔ TABLE_VBASE.num + i ≤ q.num ∧ q.num < TABLE_VBASE.num + i + n := Iff.rfl

theorem exists_tablePage {i : ℕ} (h : TABLE_VBASE.num + i < 2 ^ 52) :
    ∃ q, TABLE_VBASE.add i = .ok q := by
  have hbase : 2 ^ 52 - 2 ^ 35 ≤ TABLE_VBASE.num := by decide
  exact ⟨⟨TABLE_VBASE.num + i, .inr ⟨by omega, h⟩⟩, Page.add_eq_ok.mpr rfl⟩

theorem lt_of_tablePage {i : ℕ} {q : Page} (h : TABLE_VBASE.add i = .ok q) :
    TABLE_VBASE.num + i < 2 ^ 52 := by
  have hnum := Page.add_eq_ok.mp h
  have hcanonical := q.canonical
  omega

theorem not_inArea_table {q : Page} (h : TABLE_VBASE.num ≤ q.num) : ¬ InArea q := by
  have hfar : kvmspace.num + p1PageCount ≤ TABLE_VBASE.num := by decide
  rintro ⟨-, hlt⟩
  omega

section Pages

variable {vm vm' : Vm} {F F' : Set PhysFrame} {P : Set Page} {q : Page} {i f adr padr : ℕ}

theorem tableFrame_of_add (h : TABLE_VBASE.add i = .ok q) :
    tableFrame vm i = (vm.translate q).map fun t => t.frame.num := by
  rw [tableFrame, h]

theorem tableFrame_eq_some : tableFrame vm i = some f ↔
    ∃ q t, TABLE_VBASE.add i = .ok q ∧ vm.translate q = some t ∧ t.frame.num = f := by
  unfold tableFrame
  cases TABLE_VBASE.add i with
  | error e => simp
  | ok q => simp [Option.map_eq_some_iff]

theorem startAddress_add {page : Page} (h : TABLE_VBASE.add i = .ok page) (padr : ℕ) :
    page.startAddress + padr % pageSize = tableAdr i padr := by
  rw [Page.add_eq_ok] at h
  rw [tableAdr, Page.startAddress, h, Page.startAddress, Nat.add_mul]

/-- What is read behind `TABLE_VBASE`. -/
theorem loadByte_table (h : TABLE_VBASE.num ≤ adr / pageSize) :
    loadByte vm adr = match tableFrame vm (adr / pageSize - TABLE_VBASE.num) with
      | some f => .ok (physMem vm (f * pageSize + adr % pageSize))
      | none => .error .pageFault := by
  have hbase : 2 ^ 52 - 2 ^ 35 ≤ TABLE_VBASE.num := by decide
  unfold loadByte
  split_ifs with hcanonical
  · have hadd : TABLE_VBASE.add (adr / pageSize - TABLE_VBASE.num) = .ok ⟨_, hcanonical⟩ :=
      Page.add_eq_ok.mpr (by simp only; omega)
    rw [tableFrame_of_add hadd, Vm.frameOf]
    cases vm.translate ⟨adr / pageSize, hcanonical⟩ with
    | none => rfl
    | some t => simp only [Option.map_some, physMem_eq, except_ok_bind]
  · have hnone : tableFrame vm (adr / pageSize - TABLE_VBASE.num) = none := by
      rw [Option.eq_none_iff_forall_ne_some]
      intro f hf
      obtain ⟨q, t, hq, -⟩ := tableFrame_eq_some.mp hf
      have := lt_of_tablePage hq
      exact hcanonical (.inr ⟨by omega, by omega⟩)
    rw [hnone]

theorem tableFrame_evolves (hev : Evolves vm vm' F F' P)
    (hout : ∀ q, TABLE_VBASE.add i = .ok q → q ∉ P) : tableFrame vm' i = tableFrame vm i := by
  unfold tableFrame
  cases hq : TABLE_VBASE.add i with
  | error e => rfl
  | ok q =>
    have hnum := Page.add_eq_ok.mp hq
    simp only
    rw [hev.translate q (not_inArea_table (by omega)) (hout q hq)]

end Pages

/-! ## One table -/

/-- The frames from `f` on have been mapped at the pages with indices from `i` on, `n` of them. -/
structure MapsFrames (vm vm' : Vm) (F F' : Set PhysFrame) (f : PhysFrame) (i n : ℕ) : Prop where
  evolves : Evolves vm vm' F F' (tableArea i n)
  keeps : KeepsData vm vm'
  shows : ∀ j < n, tableFrame vm' (i + j) = some (f.num + j)

section Tables

variable {M F F' F₁ : Set PhysFrame} {vm vm' vm₁ : Vm} {f f' : PhysFrame} {page : Page}
  {padr adr i n n' : ℕ}

/-- The pages before and after a call. -/
theorem MapsFrames.tableFrame_eq (h : MapsFrames vm vm' F F' f i n) (j : ℕ) :
    tableFrame vm' j = if i ≤ j ∧ j < i + n then some (f.num + (j - i)) else tableFrame vm j := by
  split_ifs with hj
  · have hshows := h.shows (j - i) (by omega)
    rwa [show i + (j - i) = j by omega] at hshows
  · refine tableFrame_evolves h.evolves fun q hq hmem => ?_
    have hnum := Page.add_eq_ok.mp hq
    rw [mem_tableArea] at hmem
    omega

/-- One call of `vmap`. -/
theorem mapsFrames_of_vmapExpect {panic : Panic} {size : ℕ} {flags : PageTableFlags} (hinv : vm.Inv)
    (hfresh : Disjoint F vm.tables) (hpage : TABLE_VBASE.add i = .ok page)
    (hret : Returns M (vmapExpect panic vm page f size flags) F vm' F') :
    MapsFrames vm vm' F F' f i (pageCount size) := by
  obtain ⟨hev, hpages⟩ := map_evolves hinv hfresh (returns_vmapExpect.mp hret)
  have hnum := Page.add_eq_ok.mp hpage
  refine ⟨hev.mono fun q hq => ?_, vmapExpect_keepsData hinv hfresh hret, fun j hj => ?_⟩
  · rw [mem_visited] at hq
    rw [mem_tableArea]
    omega
  · obtain ⟨q, g, hq, hg, -, htrans⟩ := hpages j hj
    refine tableFrame_eq_some.mpr ⟨q, _, Page.add_eq_ok.mpr ?_, htrans, PhysFrame.add_eq_ok.mp hg⟩
    rw [Page.add_eq_ok.mp hq]
    omega

/-- Two calls whose pages and frames follow on each other. -/
theorem MapsFrames.trans (h : MapsFrames vm vm₁ F F₁ f i n)
    (h' : MapsFrames vm₁ vm' F₁ F' f' (i + n) n') (hf' : f'.num = f.num + n) :
    MapsFrames vm vm' F F' f i (n + n') where
  evolves := (h.evolves.trans h'.evolves).mono fun q hq => by
    simp only [Set.mem_union, mem_tableArea] at hq ⊢
    omega
  keeps := h.keeps.trans h'.keeps h'.evolves.tables_subset
  shows j hj := by
    rw [h'.tableFrame_eq]
    split_ifs with hsecond
    · congr 1
      omega
    · exact h.shows j (by omega)

/-- **One table.**  `map_table` maps the pages that the length of the table needs, and adds them to
the index. -/
theorem mapTable_maps {s s' : AcpiState} (hinv : s.vm.Inv) (hfresh : Disjoint F s.vm.tables)
    (hret : Returns M (mapTable padr s) F (adr, s') F') :
    ∃ f page vm₁ F₁ len, frameContaining padr = .ok f ∧ TABLE_VBASE.add s.pgindex = .ok page ∧
      adr = tableAdr s.pgindex padr ∧ MapsFrames s.vm vm₁ F F₁ f s.pgindex 1 ∧
      AcpiHeader.len (viewAt vm₁ adr) = .ok len ∧
      MapsFrames s.vm s'.vm F F' f s.pgindex (tablePages len) ∧
      s'.vmemmap = Function.update s.vmemmap f (some page) ∧
      s'.pgindex = s.pgindex + tablePages len := by
  simp only [mapTable, returns_bind, returns_lift] at hret
  obtain ⟨f, _, ⟨hf, rfl⟩, page, _, ⟨hpage, rfl⟩, vm₁, F₁, hmap, len, _, ⟨hlen, rfl⟩, hret⟩ := hret
  have hfirst : MapsFrames s.vm vm₁ _ _ f s.pgindex 1 :=
    mapsFrames_of_vmapExpect hinv hfresh hpage hmap
  rw [startAddress_add hpage] at hlen
  split_ifs at hret with hlong
  · -- the pages behind the first one
    simp only [returns_bind, returns_lift, returns_pure, Prod.mk.injEq] at hret
    obtain ⟨page', _, ⟨hpage', rfl⟩, f', _, ⟨hf', rfl⟩, vm₂, F₂, hmap', ⟨rfl, rfl⟩, rfl⟩ := hret
    have hnext : TABLE_VBASE.add (s.pgindex + 1) = .ok page' := by
      rw [Page.add_eq_ok] at hpage hpage' ⊢
      omega
    have hcount : 1 + pageCount (alignUp len pageSize - pageSize) = tablePages len := by
      simp only [pageCount, tablePages, alignUp, pageSize] at hlong ⊢
      omega
    have hrest : s.pgindex + 1 + (alignUp len pageSize - pageSize) / pageSize =
        s.pgindex + tablePages len := by
      simp only [tablePages, alignUp, pageSize] at hlong ⊢
      omega
    have hsecond := mapsFrames_of_vmapExpect hfirst.evolves.inv (hfirst.evolves.fresh hfresh)
      hnext hmap'
    exact ⟨f, page, vm₁, _, len, hf, hpage, startAddress_add hpage padr, hfirst,
      by rwa [startAddress_add hpage], hcount ▸ hfirst.trans hsecond
      (PhysFrame.add_eq_ok.mp hf'), rfl,
      hrest⟩
  · obtain ⟨hpair, rfl⟩ := returns_pure.mp hret
    cases hpair
    have hcount : tablePages len = 1 := by
      simp only [tablePages, alignUp, pageSize] at hlong ⊢
      omega
    exact ⟨f, page, vm₁, _, len, hf, hpage, startAddress_add hpage padr, hfirst,
      by rwa [startAddress_add hpage], hcount.symm ▸ hfirst, rfl, by rw [hcount]⟩

/-- With three free frames for each page of the table, the call returns.  What its length is must be
known from the first page on. -/
theorem mapTable_ensures {s : AcpiState} {k len : ℕ} (h : Workable (k + 3 * tablePages len) s.vm F)
    (hf : frameContaining padr = .ok f) (hframes : f.num + tablePages len ≤ 2 ^ 40)
    (hpages : TABLE_VBASE.num + s.pgindex + tablePages len ≤ 2 ^ 52) (hsize : len < 2 ^ 32)
    (hlen : ∀ vm₁ F₁, MapsFrames s.vm vm₁ F F₁ f s.pgindex 1 →
      AcpiHeader.len (viewAt vm₁ (tableAdr s.pgindex padr)) = .ok len) :
    Ensures M (mapTable padr s) F fun r F' => Workable k r.2.vm F' := by
  have hpos := tablePages_pos len
  obtain ⟨page, hpage⟩ := exists_tablePage (i := s.pgindex) (by omega)
  have hnum := Page.add_eq_ok.mp hpage
  have hsplit : k + 3 * tablePages len = k + 3 * (tablePages len - 1) + 3 := by omega
  rw [hsplit] at h
  refine ensures_lift_bind hf (ensures_lift_bind hpage ?_)
  refine (h.vmapExpect (not_inArea_table (by omega)) rfl).and_returns.bind ?_
  rintro vm₁ F₁ ⟨hwork, hret⟩
  have hread := hlen vm₁ F₁ (mapsFrames_of_vmapExpect h.ready.inv h.fresh hpage hret)
  rw [← startAddress_add hpage] at hread
  refine ensures_lift_bind hread ?_
  dsimp only
  split_ifs with hlong
  · -- a second call for the pages behind the first one
    have hcount : pageCount (alignUp len pageSize - pageSize) = tablePages len - 1 := by
      simp only [pageCount, tablePages, alignUp, pageSize] at hlong ⊢
      omega
    have hmany : 1 < tablePages len := by
      simp only [tablePages, alignUp, pageSize] at hlong ⊢
      omega
    obtain ⟨page', hpage'⟩ := exists_tablePage (i := s.pgindex + 1) (by omega)
    have hnum' := Page.add_eq_ok.mp hpage'
    have hnext : page.add 1 = .ok page' := Page.add_eq_ok.mpr (by omega)
    have hf' : f.add 1 = .ok ⟨f.num + 1, by omega⟩ := PhysFrame.add_eq_ok.mpr rfl
    refine ensures_lift_bind hnext (ensures_lift_bind hf' ?_)
    rw [← hcount] at hwork
    refine (hwork.vmapExpect_size (by omega) (not_inArea_table (by omega)) ?_ ⟨?_, ?_⟩ rfl).bind ?_
    · simp only [alignUp, pageSize] at hlong ⊢
      omega
    · intro j hj
      obtain ⟨q, hq⟩ := exists_tablePage (i := s.pgindex + 1 + j) (by omega)
      rw [Page.add_eq_ok] at hq
      exact ⟨q, Page.add_eq_ok.mpr (by omega)⟩
    · exact fun j hj => ⟨⟨f.num + 1 + j, by omega⟩, PhysFrame.add_eq_ok.mpr rfl⟩
    · exact fun vm₂ F₂ hwork₂ => ensures_pure hwork₂
  · exact ensures_pure (hwork.mono (by omega))

end Tables

/-! ## Calls -/

/-- A call of `getvadr`, with the physical and the virtual address as its label. -/
def Getvadr (x : AcpiState × PhysicalFrameAllocator) (call : ℕ × ℕ)
    (x' : AcpiState × PhysicalFrameAllocator) : Prop :=
  (getvadr call.1 x.1).run PhysicalFrameAllocator.pool x.2 = .ok ((call.2, x'.1), x'.2)

/-- What a call of `getvadr` does: a known first frame gives the page of the cache and changes
nothing, any other one is mapped. -/
theorem returns_getvadr {M F F' : Set PhysFrame} {padr adr : ℕ} {s s' : AcpiState}
    (h : Returns M (getvadr padr s) F (adr, s') F') :
    ∃ f, frameContaining padr = .ok f ∧
      ((∃ page, s.vmemmap f = some page ∧ adr = page.startAddress + padr % pageSize ∧ s' = s ∧
        F' = F) ∨
        s.vmemmap f = none ∧ Returns M (mapTable padr s) F (adr, s') F') := by
  simp only [getvadr, returns_bind, returns_lift] at h
  obtain ⟨f, _, ⟨hf, rfl⟩, h⟩ := h
  refine ⟨f, hf, ?_⟩
  cases hcached : s.vmemmap f with
  | some page =>
    rw [hcached] at h
    obtain ⟨hpair, rfl⟩ := returns_pure.mp h
    cases hpair
    exact .inl ⟨page, rfl, rfl, rfl, rfl⟩
  | none =>
    rw [hcached] at h
    exact .inr ⟨rfl, h⟩

end HeliumOS.Acpi
