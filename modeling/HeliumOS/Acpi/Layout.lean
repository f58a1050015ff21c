import HeliumOS.Acpi.Mapping

/-!
# The Layout of the ACPI Tables

Where `getvadr` puts the tables depends on the lengths in physical memory and on the order of the
requests, but not on the frames that the mapper takes for its page tables.  A `Layout` says which
frame is behind each page from `TABLE_VBASE` on, and at which page the table of a frame starts.

- `Layout.getvadr` is a request on a layout, and `Shows` relates a layout to the state of the
  kernel.
- `Shows.getvadr`: a call of `getvadr` that returns does what the layout says.
  `Shows.exists_getvadr`: with enough free frames it returns.
- `covers_tableAdr_iff`: a table is covered when the pages of the layout show its frames.
- `table_covered_iff`: the reference that a call returns shows its table, now and after all later
  calls, exactly when the table fits into the layout before the call.
- `tables_not_covered`: two requests for which it does not.
-/

namespace HeliumOS.Acpi

open HeliumOS.Lib HeliumOS.Lib.AllocProg HeliumOS.Mem HeliumOS.Mem.Virt

/-! ## Layouts -/

/-- The pages from `TABLE_VBASE` on, and what `acpi::init` knows about them. -/
structure Layout where
  /-- The frame behind each page, by the index of the page. -/
  pages : ℕ → Option ℕ
  /-- The index of the page at which the table with this first frame starts. -/
  vmemmap : ℕ → Option ℕ
  pgindex : ℕ

namespace Layout

/-- The layout at the start of `acpi::init`. -/
def of (vm : Vm) : Layout := ⟨tableFrame vm, fun _ => none, 0⟩

/-- A table of this length gets the next pages. -/
def mapTable (L : Layout) (padr len : ℕ) : Layout where
  pages i :=
    if L.pgindex ≤ i ∧ i < L.pgindex + tablePages len then some (padr / pageSize + (i - L.pgindex))
    else L.pages i
  vmemmap := Function.update L.vmemmap (padr / pageSize) (some L.pgindex)
  pgindex := L.pgindex + tablePages len

/-- What is read at an address behind `TABLE_VBASE`. -/
def view (m : ByteMemory) (L : Layout) (adr : ℕ) : View := fun k =>
  match L.pages ((adr + k) / pageSize - TABLE_VBASE.num) with
  | some f => .ok (m (f * pageSize + (adr + k) % pageSize))
  | none => .error .pageFault

/-- A request for the table at `padr`. -/
def getvadr (m : ByteMemory) (padr : ℕ) (L : Layout) : Except Panic (ℕ × Layout) := do
  let _ ← physAddr padr
  match L.vmemmap (padr / pageSize) with
  | some i => .ok (tableAdr i padr, L)
  | none => do
    -- the length is read when the first page has been mapped
    let len ← AcpiHeader.len ((L.mapTable padr 0).view m (tableAdr L.pgindex padr))
    ensure .acpiMap (padr / pageSize + tablePages len ≤ 2 ^ 40 ∧
      TABLE_VBASE.num + L.pgindex + tablePages len ≤ 2 ^ 52)
    .ok (tableAdr L.pgindex padr, L.mapTable padr len)

/-- The layout after some requests. -/
def after (m : ByteMemory) (L : Layout) (padrs : List ℕ) : Except Panic Layout :=
  padrs.foldlM (fun L padr => Prod.snd <$> L.getvadr m padr) L

end Layout

/-- How many pages a table has bytes in. -/
def touched (padr len : ℕ) : ℕ := if len = 0 then 0 else (padr % pageSize + len - 1) / pageSize + 1

/-- The table is shown completely when it is requested next.  If its first frame is known, the pages
behind that frame have to show the frames that follow; otherwise the pages it gets have to be
enough. -/
def Layout.Fits (m : ByteMemory) (L : Layout) (padr : ℕ) : Prop :=
  match L.vmemmap (padr / pageSize) with
  | some i => ∀ j < touched padr (tableLen m padr), L.pages (i + j) = some (padr / pageSize + j)
  | none => touched padr (tableLen m padr) ≤ tablePages (tableLen m padr)

instance (m : ByteMemory) (L : Layout) (padr : ℕ) : Decidable (L.Fits m padr) := by
  unfold Layout.Fits
  split <;> infer_instance

section Requests

variable {m : ByteMemory} {L L' : Layout} {padr adr : ℕ}

theorem AcpiHeader.len_lt {v : View} {len : ℕ} (h : AcpiHeader.len v = .ok len) : len < 2 ^ 32 := by
  obtain ⟨bytes, hbytes, h⟩ := except_bind_eq_ok.mp h
  obtain rfl := Except.ok.inj h
  have hlt := leNat_lt bytes
  rwa [show bytes.length = 4 by rw [(View.bytes_eq_ok.mp hbytes).2, ByteMemory.length_slice]] at hlt

theorem tableLen_lt (m : ByteMemory) (padr : ℕ) : tableLen m padr < 2 ^ 32 := by
  have hlt := leNat_lt (m.slice (padr + 4) 4)
  rwa [ByteMemory.length_slice] at hlt

theorem Layout.mapTable_pages_of_lt {len j : ℕ} (h : j < tablePages len) :
    (L.mapTable padr len).pages (L.pgindex + j) = some (padr / pageSize + j) := by
  simp only [Layout.mapTable]
  rw [if_pos ⟨by omega, by omega⟩, Nat.add_sub_cancel_left]

theorem Layout.mapTable_pages_of_ge {len j : ℕ} (h : tablePages len ≤ j) :
    (L.mapTable padr len).pages (L.pgindex + j) = L.pages (L.pgindex + j) := by
  simp only [Layout.mapTable]
  rw [if_neg (by omega)]

theorem Layout.getvadr_eq_ok : L.getvadr m padr = .ok (adr, L') ↔ padr < 2 ^ 52 ∧
    ((∃ i, L.vmemmap (padr / pageSize) = some i ∧ adr = tableAdr i padr ∧ L' = L) ∨
      L.vmemmap (padr / pageSize) = none ∧ adr = tableAdr L.pgindex padr ∧
      ∃ len, AcpiHeader.len ((L.mapTable padr 0).view m (tableAdr L.pgindex padr)) = .ok len ∧
        padr / pageSize + tablePages len ≤ 2 ^ 40 ∧
        TABLE_VBASE.num + L.pgindex + tablePages len ≤ 2 ^ 52 ∧ L' = L.mapTable padr len) := by
  simp only [Layout.getvadr, except_bind_eq_ok, physAddr_eq_ok]
  cases L.vmemmap (padr / pageSize) with
  | some i =>
    simp only [Except.ok.injEq, Prod.mk.injEq, Option.some.injEq, exists_eq_left', reduceCtorEq,
      false_and, or_false]
    grind
  | none =>
    simp only [except_bind_eq_ok, ensure_eq_ok, Except.ok.injEq, Prod.mk.injEq, reduceCtorEq,
      false_and, exists_const, false_or, true_and]
    grind

end Requests

/-! ## The kernel follows the layout -/

/-- Frames that are neither free nor page tables, so that the mapper never writes to them. -/
def Reserved (R : ℕ → Prop) (vm : Vm) (F : Set PhysFrame) : Prop :=
  ∀ f : PhysFrame, R f.num → f ∉ F ∧ f ∉ vm.tables

/-- The state of the kernel, some calls after `vm₀`, has this layout. -/
structure Shows (R : ℕ → Prop) (vm₀ : Vm) (F₀ : Set PhysFrame) (s : AcpiState) (L : Layout)
    (F : Set PhysFrame) : Prop where
  evolves : Evolves vm₀ s.vm F₀ F Set.univ
  keeps : ∀ f : PhysFrame, R f.num → s.vm.mem f = vm₀.mem f
  pages : ∀ i, tableFrame s.vm i = L.pages i
  cache : ∀ f : PhysFrame, (s.vmemmap f).map Page.num = (L.vmemmap f.num).map (TABLE_VBASE.num + ·)
  pgindex : s.pgindex = L.pgindex
  first : ∀ n i, L.vmemmap n = some i → i < L.pgindex ∧ L.pages i = some n
  beyond : ∀ i, L.pgindex ≤ i → L.pages i = tableFrame vm₀ i

section Shows

variable {R : ℕ → Prop} {M F F' F₀ F₁ : Set PhysFrame} {vm vm₀ vm₁ : Vm} {s s' : AcpiState}
  {L L' : Layout} {f : PhysFrame} {page : Page} {padr adr len k : ℕ}

theorem Shows.new (hinv : vm₀.Inv) (F₀ : Set PhysFrame) :
    Shows R vm₀ F₀ (.new vm₀) (.of vm₀) F₀ where
  evolves := .refl hinv F₀
  keeps _ _ := rfl
  pages _ := rfl
  cache _ := rfl
  pgindex := rfl
  first n i h := by cases h
  beyond _ _ := rfl

theorem Reserved.notMem_tables {P : Set Page} (hR : Reserved R vm₀ F₀) (hev : Evolves vm₀ vm F₀ F P)
    (hf : R f.num) : f ∉ vm.tables := by
  obtain ⟨hfree, htables⟩ := hR f hf
  intro hmem
  rcases hev.tables hmem with hold | ⟨hnew, -⟩
  · exact htables hold
  · exact hfree hnew

theorem physMem_congr {a : ℕ} (h : ∀ f : PhysFrame, f.num = a / pageSize → vm.mem f = vm₀.mem f) :
    physMem vm a = physMem vm₀ a := by
  unfold physMem
  split_ifs with hlt
  · rw [frameByte, h _ rfl, frameByte]
  · rfl

theorem viewAt_eq {m : ByteMemory} (hpages : ∀ i, tableFrame vm i = L.pages i)
    (hadr : TABLE_VBASE.num ≤ (adr + k) / pageSize)
    (hbyte : ∀ n, L.pages ((adr + k) / pageSize - TABLE_VBASE.num) = some n →
      physMem vm (n * pageSize + (adr + k) % pageSize) = m (n * pageSize + (adr + k) % pageSize)) :
    viewAt vm adr k = L.view m adr k := by
  rw [viewAt, loadByte_table hadr, hpages, Layout.view]
  cases h : L.pages ((adr + k) / pageSize - TABLE_VBASE.num) with
  | none => rfl
  | some n => exact congrArg Except.ok (hbyte n h)

theorem MapsFrames.pages_eq (hmaps : MapsFrames s.vm vm₁ F F₁ f s.pgindex (tablePages len))
    (h : Shows R vm₀ F₀ s L F) (hf : f.num = padr / pageSize) (i : ℕ) :
    tableFrame vm₁ i = (L.mapTable padr len).pages i := by
  rw [hmaps.tableFrame_eq, h.pages, h.pgindex, hf]
  rfl

theorem MapsFrames.keeps_reserved {n : ℕ} (hmaps : MapsFrames s.vm vm₁ F F₁ f s.pgindex n)
    (h : Shows R vm₀ F₀ s L F) (hR : Reserved R vm₀ F₀) (g : PhysFrame) (hg : R g.num) :
    vm₁.mem g = vm₀.mem g := by
  have hev := h.evolves.trans hmaps.evolves
  exact (hmaps.keeps g (hR.notMem_tables hev hg)).trans (h.keeps g hg)

/-- The length that `map_table` reads is the one that the layout gives.  It is in the first page, or
behind it in what the next page has shown from the start on. -/
theorem Shows.len_eq (h : Shows R vm₀ F₀ s L F) (hR : Reserved R vm₀ F₀)
    (hfirst : R (padr / pageSize)) (hnext : ∀ n, tableFrame vm₀ (L.pgindex + 1) = some n → R n)
    (hf : f.num = padr / pageSize) (hmaps : MapsFrames s.vm vm₁ F F₁ f s.pgindex 1) :
    AcpiHeader.len (viewAt vm₁ (tableAdr s.pgindex padr)) =
      AcpiHeader.len ((L.mapTable padr 0).view (physMem vm₀) (tableAdr L.pgindex padr)) := by
  have hbytes : (viewAt vm₁ (tableAdr L.pgindex padr)).bytes 4 4 =
      ((L.mapTable padr 0).view (physMem vm₀) (tableAdr L.pgindex padr)).bytes 4 4 := by
    -- the four bytes may be spread over two pages
    refine View.bytes_congr fun k hlo hhi => ?_
    have hindex : (tableAdr L.pgindex padr + k) / pageSize =
        TABLE_VBASE.num + L.pgindex + (padr % pageSize + k) / pageSize := by
      simp only [tableAdr, Page.startAddress, pageSize]
      omega
    have hcases : (padr % pageSize + k) / pageSize = 0 ∨ (padr % pageSize + k) / pageSize = 1 := by
      simp only [pageSize]
      omega
    have hpages : ∀ i, tableFrame vm₁ i = (L.mapTable padr 0).pages i := hmaps.pages_eq h hf
    refine viewAt_eq hpages (by omega) fun n hn => ?_
    refine physMem_congr fun g hg => hmaps.keeps_reserved h hR g ?_
    have hgn : g.num = n := by
      simp only [pageSize] at hg
      omega
    rw [hgn]
    rw [hindex, Nat.add_assoc, Nat.add_sub_cancel_left] at hn
    rcases hcases with hzero | hone
    · rw [hzero, Layout.mapTable_pages_of_lt (tablePages_pos 0), Option.some.injEq] at hn
      rwa [← hn]
    · rw [hone, Layout.mapTable_pages_of_ge (by decide), h.beyond _ (by omega)] at hn
      exact hnext n hn
  rw [h.pgindex, AcpiHeader.len, AcpiHeader.len, hbytes]

/-- A table has been mapped. -/
theorem Shows.mapTable (h : Shows R vm₀ F₀ s L F) (hR : Reserved R vm₀ F₀)
    (hf : f.num = padr / pageSize) (hpage : TABLE_VBASE.add s.pgindex = .ok page)
    (hmaps : MapsFrames s.vm s'.vm F F' f s.pgindex (tablePages len))
    (hcache : s'.vmemmap = Function.update s.vmemmap f (some page))
    (hindex : s'.pgindex = s.pgindex + tablePages len) :
    Shows R vm₀ F₀ s' (L.mapTable padr len) F' where
  evolves := (h.evolves.trans hmaps.evolves).mono (Set.subset_univ _)
  keeps := hmaps.keeps_reserved h hR
  pages := hmaps.pages_eq h hf
  cache g := by
    simp only [hcache, Layout.mapTable, Function.update_apply, PhysFrame.ext_iff, hf]
    split_ifs with hg
    · rw [Option.map_some, Option.map_some, Page.add_eq_ok.mp hpage, h.pgindex]
    · exact h.cache g
  pgindex := by rw [hindex, h.pgindex, Layout.mapTable]
  first n i hn := by
    have hpos := tablePages_pos len
    simp only [Layout.mapTable, Function.update_apply] at hn ⊢
    -- the new table, or one that was mapped before
    split_ifs at hn with hfirst
    · obtain rfl := Option.some.inj hn
      exact ⟨by omega, by rw [if_pos ⟨le_rfl, by omega⟩, Nat.sub_self, Nat.add_zero, hfirst]⟩
    · obtain ⟨hlt, hshows⟩ := h.first n i hn
      exact ⟨by omega, by rw [if_neg (by omega), hshows]⟩
  beyond i hi := by
    simp only [Layout.mapTable] at hi ⊢
    rw [if_neg (by omega), h.beyond i (by omega)]

theorem Shows.vmemmap_eq_none (h : Shows R vm₀ F₀ s L F) (f : PhysFrame) :
    s.vmemmap f = none ↔ L.vmemmap f.num = none := by
  rw [← Option.map_eq_none_iff (f := Page.num), h.cache, Option.map_eq_none_iff]

theorem Shows.vmemmap_eq_some (h : Shows R vm₀ F₀ s L F) (hcached : s.vmemmap f = some page) :
    ∃ i, L.vmemmap f.num = some i ∧ TABLE_VBASE.add i = .ok page := by
  have hcache := h.cache f
  rw [hcached, Option.map_some] at hcache
  obtain ⟨i, hi, hnum⟩ := Option.map_eq_some_iff.mp hcache.symm
  exact ⟨i, hi, Page.add_eq_ok.mpr hnum.symm⟩

/-- **One call.**  A call of `getvadr` that returns does what the layout says. -/
theorem Shows.getvadr (h : Shows R vm₀ F₀ s L F) (hR : Reserved R vm₀ F₀)
    (hfresh : Disjoint F₀ vm₀.tables)
    (hfirst : L.vmemmap (padr / pageSize) = none → R (padr / pageSize))
    (hnext : ∀ n, tableFrame vm₀ (L.pgindex + 1) = some n → R n)
    (hret : Returns M (Acpi.getvadr padr s) F (adr, s') F') :
    ∃ L', L.getvadr (physMem vm₀) padr = .ok (adr, L') ∧ Shows R vm₀ F₀ s' L' F' := by
  -- the frame is in the cache, or the table is mapped now
  obtain ⟨f, hf, ⟨page, hcached, rfl, rfl, rfl⟩ | ⟨hcached, hret⟩⟩ := returns_getvadr hret
  · obtain ⟨hlt, hnum⟩ := frameContaining_eq_ok.mp hf
    obtain ⟨i, hi, hpage⟩ := h.vmemmap_eq_some hcached
    rw [hnum] at hi
    exact ⟨L, Layout.getvadr_eq_ok.mpr ⟨hlt, .inl ⟨i, hi, startAddress_add hpage padr, rfl⟩⟩, h⟩
  · obtain ⟨hlt, hnum⟩ := frameContaining_eq_ok.mp hf
    obtain ⟨f', page, vm₁, F₁, len, hf', hpage, rfl, hmaps₁, hlen, hmaps, hcache, hindex⟩ :=
      mapTable_maps h.evolves.inv (h.evolves.fresh hfresh) hret
    obtain rfl : f = f' := Except.ok.inj (hf.symm.trans hf')
    rw [h.vmemmap_eq_none, hnum] at hcached
    rw [h.len_eq hR (hfirst hcached) hnext hnum hmaps₁] at hlen
    refine ⟨L.mapTable padr len, Layout.getvadr_eq_ok.mpr
      ⟨hlt, .inr ⟨hcached, by rw [h.pgindex], len, hlen, ?_, ?_, rfl⟩⟩, h.mapTable hR hnum hpage
      hmaps hcache hindex⟩
    all_goals
      -- the last page of the table exists, and shows a frame
      have hpos := tablePages_pos len
      obtain ⟨q, t, hq, -, ht⟩ :=
        tableFrame_eq_some.mp (hmaps.shows (tablePages len - 1) (by omega))
    · have := t.frame.isLt
      omega
    · have := lt_of_tablePage hq
      have := h.pgindex
      omega

/-- With enough free frames, the call returns. -/
theorem Shows.getvadr_ensures (h : Shows R vm₀ F₀ s L F) (hR : Reserved R vm₀ F₀)
    (hfirst : L.vmemmap (padr / pageSize) = none → R (padr / pageSize))
    (hnext : ∀ n, tableFrame vm₀ (L.pgindex + 1) = some n → R n)
    (hplan : L.getvadr (physMem vm₀) padr = .ok (adr, L'))
    (hwork : Workable (k + 3 * (L'.pgindex - L.pgindex)) s.vm F) :
    Ensures M (Acpi.getvadr padr s) F fun r F' => Workable k r.2.vm F' := by
  obtain ⟨hlt, hplan⟩ := Layout.getvadr_eq_ok.mp hplan
  obtain ⟨f, hf⟩ := exists_frameContaining hlt
  have hnum := (frameContaining_eq_ok.mp hf).2
  refine ensures_lift_bind hf ?_
  rcases hplan with ⟨i, hi, -, rfl⟩ | ⟨hnone, -, len, hlen, hframes, hpages, rfl⟩
  · -- the page is in the cache
    cases hcached : s.vmemmap f with
    | some page => exact ensures_pure (hwork.mono (by omega))
    | none =>
      rw [h.vmemmap_eq_none, hnum, hi] at hcached
      cases hcached
  · rw [(h.vmemmap_eq_none f).mpr (by rw [hnum, hnone])]
    have hcount : (L.mapTable padr len).pgindex - L.pgindex = tablePages len :=
      Nat.add_sub_cancel_left _ _
    -- three frames for each page of the table
    rw [hcount] at hwork
    refine mapTable_ensures hwork hf (by omega) (by rwa [h.pgindex]) (AcpiHeader.len_lt hlen) ?_
    intro vm₁ F₁ hmaps
    rw [h.len_eq hR (hfirst hnone) hnext hnum hmaps, hlen]

/-- The same for a call on the machine. -/
theorem Shows.exists_getvadr {pmm : PhysicalFrameAllocator} (h : Shows R vm₀ F₀ s L pmm.free)
    (hR : Reserved R vm₀ F₀) (hfresh : Disjoint F₀ vm₀.tables)
    (hfirst : L.vmemmap (padr / pageSize) = none → R (padr / pageSize))
    (hnext : ∀ n, tableFrame vm₀ (L.pgindex + 1) = some n → R n)
    (hplan : L.getvadr (physMem vm₀) padr = .ok (adr, L'))
    (hable : Able s.vm pmm (k + 3 * (L'.pgindex - L.pgindex))) :
    ∃ s' pmm', Getvadr (s, pmm) (padr, adr) (s', pmm') ∧ Shows R vm₀ F₀ s' L' pmm'.free ∧
      Able s'.vm pmm' k := by
  obtain ⟨⟨adr', s'⟩, pmm', hrun, hsound, hspace, hwork⟩ :=
    hable.run (h.getvadr_ensures hR hfirst hnext hplan (.of_able hable))
  obtain ⟨hret, -⟩ := run_returns PhysicalFrameAllocator.freeSet hable.sound hrun
  obtain ⟨L'', hplan', hshows⟩ := h.getvadr hR hfresh hfirst hnext hret
  cases hplan.symm.trans hplan'
  exact ⟨s', pmm', hrun, hshows, hwork.able hsound hspace⟩

end Shows

/-! ## Sequences of calls -/

/-- The kernel can go on making calls. -/
structure Callable (x : AcpiState × PhysicalFrameAllocator) : Prop where
  sound : x.2.Sound
  inv : x.1.vm.Inv
  fresh : Disjoint x.2.free x.1.vm.tables

section Calls

variable {R : ℕ → Prop} {vm vm₀ : Vm} {pmm : PhysicalFrameAllocator}
  {x x' x₁ x₂ : AcpiState × PhysicalFrameAllocator} {call : ℕ × ℕ} {calls before : List (ℕ × ℕ)}
  {i padr len : ℕ}

theorem Getvadr.keeps (hx : Callable x) (h : Getvadr x call x') :
    Callable x' ∧ x.1.pgindex ≤ x'.1.pgindex ∧
      ∀ i < x.1.pgindex, tableFrame x'.1.vm i = tableFrame x.1.vm i := by
  obtain ⟨hret, hsound, -⟩ := run_returns PhysicalFrameAllocator.freeSet hx.sound h
  obtain ⟨f, -, ⟨page, -, -, hs, hF⟩ | ⟨-, hret⟩⟩ := returns_getvadr hret
  · have hfree : x'.2.free = x.2.free := hF
    refine ⟨⟨hsound, hs ▸ hx.inv, ?_⟩, hs ▸ le_rfl, fun i _ => by rw [hs]⟩
    rw [hs, hfree]
    exact hx.fresh
  · obtain ⟨f, page, vm₁, F₁, len, -, -, -, -, -, hmaps, -, hindex⟩ :=
      mapTable_maps hx.inv hx.fresh hret
    refine ⟨⟨hsound, hmaps.evolves.inv, hmaps.evolves.fresh hx.fresh⟩, by omega, fun i hi => ?_⟩
    rw [hmaps.tableFrame_eq, if_neg (by omega)]

theorem keeps_of_run (hx : Callable x) (hrun : Run Getvadr x calls x') :
    Callable x' ∧ x.1.pgindex ≤ x'.1.pgindex ∧
      ∀ i < x.1.pgindex, tableFrame x'.1.vm i = tableFrame x.1.vm i := by
  induction hrun with
  | nil => exact ⟨hx, le_rfl, fun _ _ => rfl⟩
  | snoc _ hlast ih =>
    obtain ⟨hcallable, hle, hpages⟩ := ih
    obtain ⟨hcallable', hle', hpages'⟩ := hlast.keeps hcallable
    exact ⟨hcallable', hle.trans hle', fun i hi => (hpages' i (by omega)).trans (hpages i hi)⟩

theorem Layout.after_nil (m : ByteMemory) (L : Layout) : L.after m [] = .ok L := rfl

theorem Layout.after_concat {m : ByteMemory} {L L₁ : Layout} {padrs : List ℕ} {r : ℕ × Layout}
    (h : L.after m padrs = .ok L₁) (hlast : L₁.getvadr m padr = .ok r) :
    L.after m (padrs ++ [padr]) = .ok r.2 := by
  rw [Layout.after] at h ⊢
  rw [List.foldlM_append, h, except_ok_bind, List.foldlM_cons, hlast]
  rfl

/-- **Sequences of calls.**  The layout after the calls follows from the requests and from physical
memory. -/
theorem shows_of_run (hx : Callable (.new vm₀, pmm)) (hR : Reserved R vm₀ pmm.free)
    (hrun : Run Getvadr (.new vm₀, pmm) calls x) (hcalls : ∀ c ∈ calls, R (c.1 / pageSize))
    (hnext : ∀ i ≤ x.1.pgindex + 1, ∀ n, tableFrame vm₀ i = some n → R n) :
    ∃ L, (Layout.of vm₀).after (physMem vm₀) (calls.map Prod.fst) = .ok L ∧
      Shows R vm₀ pmm.free x.1 L x.2.free := by
  induction hrun with
  | nil => exact ⟨_, rfl, .new hx.inv _⟩
  | @snoc x₁ x₂ calls call hbefore hlast ih =>
    obtain ⟨hbefore_calls, hcall⟩ := List.forall_mem_append.mp hcalls
    obtain ⟨hcallable, -, -⟩ := keeps_of_run hx hbefore
    obtain ⟨-, hle, -⟩ := hlast.keeps hcallable
    obtain ⟨L, hL, hshows⟩ := ih hbefore_calls fun i hi => hnext i (by omega)
    obtain ⟨hret, -⟩ := run_returns PhysicalFrameAllocator.freeSet hcallable.sound hlast
    have hindex := hshows.pgindex
    obtain ⟨L', hplan, hshows'⟩ := hshows.getvadr hR hx.fresh
      (fun _ => hcall call (List.mem_singleton_self call)) (hnext _ (by omega)) hret
    refine ⟨L', ?_, hshows'⟩
    rw [List.map_append, List.map_singleton, Layout.after_concat hL hplan]

/-! ## Tables that are covered -/

theorem touched_le (padr : ℕ) (hlen : len < 2 ^ 32) : touched padr len ≤ 2 ^ 20 + 1 := by
  simp only [touched, pageSize]
  split_ifs <;> omega

/-- A table is covered when each page it touches shows the frame it should. What counts is the
number of pages that its bytes touch, which depends on where in its first frame it begins, and not
only on its length. -/
theorem covers_tableAdr_iff : Covers vm (tableAdr i padr) padr len ↔
    ∀ j < touched padr len, tableFrame vm (i + j) = some (padr / pageSize + j) := by
  constructor
  · intro h j hj
    have hlen : len ≠ 0 := by
      rintro rfl
      exact Nat.not_lt_zero j hj
    -- the first byte in the page
    obtain ⟨k, hk, hpage⟩ : ∃ k < len, (padr % pageSize + k) / pageSize = j := by
      rw [touched, if_neg hlen] at hj
      simp only [pageSize] at hj ⊢
      exact ⟨j * 4096 - padr % 4096, by omega, by omega⟩
    obtain ⟨q, f, flags, hq, hf, -, htrans⟩ := h k hk
    refine tableFrame_eq_some.mpr ⟨q, _, Page.add_eq_ok.mpr ?_, htrans, ?_⟩
    all_goals
      simp only [tableAdr, Page.startAddress, pageSize] at hq hf hpage ⊢
      omega
  · intro h k hk
    have hpage : (padr % pageSize + k) / pageSize < touched padr len := by
      rw [touched, if_neg (by omega)]
      simp only [pageSize]
      omega
    obtain ⟨q, t, hq, htrans, ht⟩ := tableFrame_eq_some.mp (h _ hpage)
    rw [Page.add_eq_ok] at hq
    refine ⟨q, t.frame, t.flags, ?_, ?_, ?_, htrans⟩
    all_goals
      simp only [tableAdr, Page.startAddress, pageSize] at hq ht ⊢
      omega

theorem Layout.view_first {m : ByteMemory} {L : Layout} {k : ℕ}
    (hk : padr % pageSize + k < pageSize) :
    (L.mapTable padr len).view m (tableAdr L.pgindex padr) k = .ok (m (padr + k)) := by
  have hindex : (tableAdr L.pgindex padr + k) / pageSize - TABLE_VBASE.num = L.pgindex + 0 := by
    simp only [tableAdr, Page.startAddress, pageSize] at hk ⊢
    omega
  rw [Layout.view, hindex, Layout.mapTable_pages_of_lt (tablePages_pos len)]
  refine congrArg (fun a => Except.ok (m a)) ?_
  simp only [tableAdr, Page.startAddress, pageSize] at hk ⊢
  omega

theorem Layout.len_view {m : ByteMemory} {L : Layout} (h : padr % pageSize + 8 ≤ pageSize) :
    AcpiHeader.len ((L.mapTable padr 0).view m (tableAdr L.pgindex padr)) =
      .ok (tableLen m padr) := by
  have hbytes : ((L.mapTable padr 0).view m (tableAdr L.pgindex padr)).bytes 4 4 =
      .ok (m.slice (padr + 4) 4) := by
    refine View.bytes_eq_ok.mpr ⟨fun k hk => ⟨_, Layout.view_first (by omega)⟩, ?_⟩
    refine List.map_congr_left fun k hk => ?_
    rw [List.mem_range] at hk
    rw [View.memory_of_eq_ok (Layout.view_first (by omega)), Nat.add_assoc]
  rw [AcpiHeader.len, hbytes]
  rfl

theorem Layout.len_eq_tableLen {m : ByteMemory} {L : Layout}
    (hnext : L.pages (L.pgindex + 1) = none)
    (h : AcpiHeader.len ((L.mapTable padr 0).view m (tableAdr L.pgindex padr)) = .ok len) :
    len = tableLen m padr := by
  by_cases hheader : padr % pageSize + 8 ≤ pageSize
  · exact Except.ok.inj (h.symm.trans (Layout.len_view hheader))
  · -- otherwise its last byte is in the page behind it
    obtain ⟨bytes, hbytes, -⟩ := except_bind_eq_ok.mp h
    obtain ⟨b, hb⟩ := (View.bytes_eq_ok.mp hbytes).1 3 (by decide)
    have hindex : (tableAdr L.pgindex padr + (4 + 3)) / pageSize - TABLE_VBASE.num =
        L.pgindex + 1 := by
      simp only [tableAdr, Page.startAddress, pageSize] at hheader ⊢
      omega
    rw [Layout.view, hindex, Layout.mapTable_pages_of_ge (by decide), hnext] at hb
    cases hb

theorem Layout.getvadr_uncached {m : ByteMemory} {L : Layout} (hpadr : padr < 2 ^ 52)
    (hnone : L.vmemmap (padr / pageSize) = none) (hheader : padr % pageSize + 8 ≤ pageSize)
    (hframes : padr / pageSize + tablePages (tableLen m padr) ≤ 2 ^ 40)
    (hpages : TABLE_VBASE.num + L.pgindex + tablePages (tableLen m padr) ≤ 2 ^ 52) :
    L.getvadr m padr = .ok (tableAdr L.pgindex padr, L.mapTable padr (tableLen m padr)) :=
  Layout.getvadr_eq_ok.mpr
    ⟨hpadr, .inr ⟨hnone, rfl, _, Layout.len_view hheader, hframes, hpages, rfl⟩⟩

/-- Where nothing is mapped behind the pages of a layout, a table that is requested is covered by
the pages of the next layout exactly when it fits. -/
theorem Layout.fits_iff {m : ByteMemory} {L L' : Layout} {adr : ℕ}
    (hvacant : ∀ i, L.pgindex ≤ i → i ≤ L'.pgindex + 2 ^ 20 → L.pages i = none)
    (h : L.getvadr m padr = .ok (adr, L')) :
    ∃ i, adr = tableAdr i padr ∧ L'.vmemmap (padr / pageSize) = some i ∧
      ((∀ j < touched padr (tableLen m padr), L'.pages (i + j) = some (padr / pageSize + j)) ↔
        L.Fits m padr) := by
  obtain ⟨-, ⟨i, hi, rfl, rfl⟩ | ⟨hnone, rfl, len, hlen, -, -, rfl⟩⟩ := Layout.getvadr_eq_ok.mp h
  · exact ⟨i, rfl, hi, by rw [Layout.Fits, hi]⟩
  · have hindex : (L.mapTable padr len).pgindex = L.pgindex + tablePages len := rfl
    obtain rfl := Layout.len_eq_tableLen (hvacant _ (by omega) (by omega)) hlen
    refine ⟨L.pgindex, rfl, by simp [Layout.mapTable], ?_⟩
    rw [Layout.Fits, hnone]
    constructor
    · -- the page behind the last one is not mapped
      intro hall
      by_contra hlt
      have hpage := hall _ (Nat.not_le.mp hlt)
      have hbound := touched_le padr (tableLen_lt m padr)
      rw [Layout.mapTable_pages_of_ge le_rfl, hvacant _ (by omega) (by omega)] at hpage
      cases hpage
    · exact fun hfits j hj => Layout.mapTable_pages_of_lt (hj.trans_le hfits)

/-- **References to tables.**  Let some tables have been requested, and then another one.  The
reference that is returned for it shows the table byte for byte, after this call and after all later
ones, exactly when the table fits into the layout of the tables before the call.

The first frames of the requested tables are neither free nor page tables, and the pages behind the
ones that are mapped were not in use, as far as a table can reach. -/
theorem table_covered_iff (hinv : vm₀.Inv) (hsound : pmm.Sound)
    (hfresh : Disjoint pmm.free vm₀.tables)
    (hsettled : ∀ c ∈ before ++ [call], ∀ f : PhysFrame, f.num = c.1 / pageSize →
      f ∉ pmm.free ∧ f ∉ vm₀.tables)
    (hbefore : Run Getvadr (.new vm₀, pmm) before x₁) (hcall : Getvadr x₁ call x₂)
    (hvacant : ∀ i ≤ x₂.1.pgindex + 2 ^ 20, tableFrame vm₀ i = none) :
    ∃ L, (Layout.of vm₀).after (physMem vm₀) (before.map Prod.fst) = .ok L ∧
      ((∀ after x, Run Getvadr x₂ after x →
          Covers x.1.vm call.2 call.1 (tableLen (physMem vm₀) call.1)) ↔
        L.Fits (physMem vm₀) call.1) := by
  have hx : Callable (.new vm₀, pmm) := ⟨hsound, hinv, hfresh⟩
  have hR : Reserved (fun n => ∃ c ∈ before ++ [call], n = c.1 / pageSize) vm₀ pmm.free := by
    rintro f ⟨c, hc, hf⟩
    exact hsettled c hc f hf
  have hvacant' : ∀ i ≤ x₂.1.pgindex + 2 ^ 20, ∀ n, tableFrame vm₀ i = some n →
      ∃ c ∈ before ++ [call], n = c.1 / pageSize := fun i hi n hn => by
    rw [hvacant i hi] at hn
    cases hn
  obtain ⟨hx₁, -, -⟩ := keeps_of_run hx hbefore
  obtain ⟨hx₂, hle, -⟩ := hcall.keeps hx₁
  obtain ⟨L, hL, hshows⟩ := shows_of_run hx hR hbefore
    (fun c hc => ⟨c, List.mem_append_left _ hc, rfl⟩) fun i hi => hvacant' i (by omega)
  have hindex := hshows.pgindex
  obtain ⟨hret, -⟩ := run_returns PhysicalFrameAllocator.freeSet hx₁.sound hcall
  -- the call itself, on the layout of the calls before it
  obtain ⟨L', hplan, hshows'⟩ := hshows.getvadr hR hfresh
    (fun _ => ⟨call, List.mem_append_right _ (List.mem_singleton_self call), rfl⟩)
    (hvacant' _ (by omega)) hret
  have hindex' := hshows'.pgindex
  obtain ⟨i, hadr, hi, hfits⟩ := Layout.fits_iff (fun j hj hj' => by
    rw [hshows.beyond j hj, hvacant j (by omega)]) hplan
  refine ⟨L, hL, ?_⟩
  simp only [hadr, covers_tableAdr_iff]
  rw [← hfits]
  constructor
  · intro hall j hj
    rw [← hshows'.pages]
    exact hall [] x₂ (.nil x₂) j hj
  · -- a page that shows a frame is in front of the pages of later tables
    intro hall later x hrun j hj
    have hpage := hall j hj
    have hbound := touched_le call.1 (tableLen_lt (physMem vm₀) call.1)
    have hfirst := (hshows'.first _ i hi).1
    have hlt : i + j < L'.pgindex := by
      by_contra hge
      rw [hshows'.beyond _ (by omega), hvacant _ (by omega)] at hpage
      cases hpage
    obtain ⟨-, -, hkeeps⟩ := keeps_of_run hx₂ hrun
    rw [hkeeps _ (by omega), hshows'.pages, hpage]

end Calls

/-! ## Tables in one frame -/

/-- The frame of the tables below, far from the page tables and from the free frames. -/
def firmwareFrame : PhysFrame := ⟨0x50, by decide⟩

/-- A fresh address space with the given words in that frame. -/
def firmwareVm (word : Fin 512 → BitVec 64) : Vm :=
  { freshVm with mem := Function.update freshVm.mem firmwareFrame word }

/-- Words that are the first eight bytes of tables with these lengths. -/
def lengths (lens : List (Fin 512 × BitVec 32)) (i : Fin 512) : BitVec 64 :=
  ((lens.lookup i).getD 0).setWidth 64 <<< 32

section Firmware

variable {word : Fin 512 → BitVec 64} {padr k : ℕ}

theorem firmwareVm_dataOnly (word : Fin 512 → BitVec 64) :
    DataOnly freshVm (firmwareVm word) {firmwareFrame} :=
  ⟨fun _ hf => Function.update_of_ne hf _ _, rfl, rfl, rfl, rfl⟩

theorem firmwareFrame_disjoint : Disjoint {firmwareFrame} freshVm.tables :=
  Set.disjoint_singleton_left.mpr fun hmem => absurd (freshVm_tables hmem) (by decide)

theorem able_firmware (word : Fin 512 → BitVec 64) : Able (firmwareVm word) freshPmm 4095 :=
  ((Workable.of_able able_fresh).of_dataOnly (firmwareVm_dataOnly word) firmwareFrame_disjoint).able
    freshPmm_sound freshPmm_inSpace

theorem firmware_reserved (word : Fin 512 → BitVec 64) :
    Reserved (· = firmwareFrame.num) (firmwareVm word) freshPmm.free := by
  intro f hf
  obtain rfl : f = firmwareFrame := PhysFrame.ext hf
  refine ⟨fun hmem => absurd (num_of_mem_freshPmm_free hmem) (by decide), ?_⟩
  rw [(firmwareVm_dataOnly word).tables_eq firmwareFrame_disjoint]
  exact Set.disjoint_singleton_left.mp firmwareFrame_disjoint

theorem firmware_tableFrame (word : Fin 512 → BitVec 64) (i : ℕ) :
    tableFrame (firmwareVm word) i = none := by
  rw [Option.eq_none_iff_forall_ne_some]
  intro f hf
  obtain ⟨q, t, hq, htrans, -⟩ := tableFrame_eq_some.mp hf
  have hnum := Page.add_eq_ok.mp hq
  rw [(firmwareVm_dataOnly word).translate_eq firmwareFrame_disjoint,
    freshVm_translate (not_inArea_table (by omega))] at htrans
  cases htrans

theorem firmware_unused (word : Fin 512 → BitVec 64) (i n : ℕ)
    (h : tableFrame (firmwareVm word) i = some n) : n = firmwareFrame.num := by
  rw [firmware_tableFrame] at h
  cases h

/-- The first request, for a table of up to two pages. -/
theorem firmware_getvadr (padr : ℕ) (word : Fin 512 → BitVec 64)
    (hp : padr / pageSize = firmwareFrame.num)
    (hheader : padr % pageSize + 8 ≤ pageSize)
    (hlen : tableLen (physMem (firmwareVm word)) padr ≤ 2 * pageSize) :
    ∃ s pmm, Getvadr (.new (firmwareVm word), freshPmm) (padr, tableAdr 0 padr) (s, pmm) ∧
      Shows (· = firmwareFrame.num) (firmwareVm word) freshPmm.free s
        ((Layout.of (firmwareVm word)).mapTable padr (tableLen (physMem (firmwareVm word)) padr))
        pmm.free ∧ Able s.vm pmm 4089 := by
  have hable := able_firmware word
  have hpages : tablePages (tableLen (physMem (firmwareVm word)) padr) ≤ 2 := by
    simp only [tablePages, alignUp, pageSize] at hlen ⊢
    omega
  have hindex : (Layout.of (firmwareVm word)).pgindex = 0 := rfl
  have hframe : firmwareFrame.num = 0x50 := rfl
  have hbase : TABLE_VBASE.num + 2 ≤ 2 ^ 52 := by decide
  have hlt : padr < 2 ^ 52 := by
    simp only [pageSize, firmwareFrame] at hp
    omega
  -- the layout says which page comes next; the kernel does the same if it has the frames
  have hplan := Layout.getvadr_uncached (m := physMem (firmwareVm word))
    (L := .of (firmwareVm word)) hlt
    rfl hheader (by rw [hp, hframe]; omega) (by rw [hindex]; omega)
  refine (Shows.new hable.ready.inv freshPmm.free).exists_getvadr (firmware_reserved word)
    hable.fresh
    (fun _ => hp) (firmware_unused word _) hplan (hable.mono ?_)
  simp only [Layout.mapTable, hindex]
  omega

theorem firmware_behind {len : ℕ} (hlen : tablePages len ≤ 1) :
    ((Layout.of (firmwareVm word)).mapTable padr len).pages (0 + 1) = none :=
  (Layout.mapTable_pages_of_ge (L := .of (firmwareVm word)) hlen).trans (firmware_tableFrame word 1)

theorem firmware_getvadr_again (padr : ℕ) {s : AcpiState} {L : Layout}
    {pmm : PhysicalFrameAllocator}
    (h : Shows (· = firmwareFrame.num) (firmwareVm word) freshPmm.free s L pmm.free)
    (hp : padr / pageSize = firmwareFrame.num) (hcached : L.vmemmap firmwareFrame.num = some 0)
    (hable : Able s.vm pmm k) :
    ∃ s' pmm', Getvadr (s, pmm) (padr, tableAdr 0 padr) (s', pmm') ∧
      Shows (· = firmwareFrame.num) (firmwareVm word) freshPmm.free s' L pmm'.free := by
  have hplan : L.getvadr (physMem (firmwareVm word)) padr = .ok (tableAdr 0 padr, L) := by
    refine Layout.getvadr_eq_ok.mpr ⟨?_, .inl ⟨0, by rw [hp, hcached], rfl, rfl⟩⟩
    simp only [pageSize, firmwareFrame] at hp
    omega
  obtain ⟨s', pmm', hcall, hshows, -⟩ := h.exists_getvadr (k := k) (firmware_reserved word)
    (able_firmware word).fresh (fun _ => hp) (firmware_unused word _) hplan (hable.mono (by omega))
  exact ⟨s', pmm', hcall, hshows⟩

end Firmware

/-- A table of 5000 bytes, and then a short one in its first page. -/
theorem table_covered_shared : ∃ x₁ x₂,
    Run Getvadr (.new (firmwareVm (lengths [(0, 5000), (256, 100)])), freshPmm)
      [(0x50000, tableAdr 0 0x50000)] x₁ ∧
    Getvadr x₁ (0x50800, tableAdr 0 0x50800) x₂ ∧
    ∀ after x, Run Getvadr x₂ after x → Covers x.1.vm (tableAdr 0 0x50800) 0x50800 100 := by
  have hfirst : tableLen (physMem (firmwareVm (lengths [(0, 5000), (256, 100)]))) 0x50000 =
      5000 := by
    decide +kernel
  have hsecond : tableLen (physMem (firmwareVm (lengths [(0, 5000), (256, 100)]))) 0x50800 =
      100 := by
    decide +kernel
  obtain ⟨s₁, pmm₁, hcall₁, hshows, hable⟩ :=
    firmware_getvadr 0x50000 (lengths [(0, 5000), (256, 100)])
    rfl (by decide) (by rw [hfirst]; decide)
  obtain ⟨s₂, pmm₂, hcall₂, -⟩ := firmware_getvadr_again 0x50800 hshows rfl
    (by rw [hfirst]; decide) hable
  have hstart := able_firmware (lengths [(0, 5000), (256, 100)])
  have hframes : ∀ c ∈ [(0x50000, tableAdr 0 0x50000)] ++ [(0x50800, tableAdr 0 0x50800)],
      c.1 / pageSize = firmwareFrame.num := by decide
  obtain ⟨L, hL, hiff⟩ := table_covered_iff hstart.ready.inv hstart.sound hstart.fresh
    (fun c hc f hf => firmware_reserved _ f (hf.trans (hframes c hc))) (.single hcall₁) hcall₂
    fun i _ => firmware_tableFrame _ i
  refine ⟨_, _, .single hcall₁, hcall₂, ?_⟩
  rw [hsecond] at hiff
  refine hiff.mpr ?_
  -- the layout before the second call has two pages for the first table
  have hplan : (Layout.of (firmwareVm (lengths [(0, 5000), (256, 100)]))).getvadr _ 0x50000 =
      .ok _ :=
    Layout.getvadr_uncached (by decide) rfl (by decide) (by rw [hfirst]; decide)
      (by rw [hfirst]; decide)
  cases hL.symm.trans (Layout.after_concat (Layout.after_nil _ _) hplan)
  rw [Layout.Fits, hsecond, hfirst]
  exact fun j hj => Layout.mapTable_pages_of_lt (hj.trans_le (by decide))

/-- A short table may run into a page that is not mapped, and a long one gets the page of a short
one that was there first. -/
theorem tables_not_covered :
    (Able (firmwareVm (lengths [(510, 36)])) freshPmm 4095 ∧
      Reserved (· = 0x50) (firmwareVm (lengths [(510, 36)])) freshPmm.free ∧
      tableLen (physMem (firmwareVm (lengths [(510, 36)]))) 0x50ff0 = 36 ∧
      ∃ s pmm', Run Getvadr (.new (firmwareVm (lengths [(510, 36)])), freshPmm)
          [(0x50ff0, tableAdr 0 0x50ff0)] (s, pmm') ∧
        ¬ Covers s.vm (tableAdr 0 0x50ff0) 0x50ff0 36) ∧
    (Able (firmwareVm (lengths [(0, 36), (256, 5000)])) freshPmm 4095 ∧
      Reserved (· = 0x50) (firmwareVm (lengths [(0, 36), (256, 5000)])) freshPmm.free ∧
      tableLen (physMem (firmwareVm (lengths [(0, 36), (256, 5000)]))) 0x50800 = 5000 ∧
      ∃ s pmm', Run Getvadr (.new (firmwareVm (lengths [(0, 36), (256, 5000)])), freshPmm)
          [(0x50000, tableAdr 0 0x50000), (0x50800, tableAdr 0 0x50800)] (s, pmm') ∧
        ¬ Covers s.vm (tableAdr 0 0x50800) 0x50800 5000) := by
  have hlast : tableLen (physMem (firmwareVm (lengths [(510, 36)]))) 0x50ff0 = 36 :=
    by decide +kernel
  have hfirst : tableLen (physMem (firmwareVm (lengths [(0, 36), (256, 5000)]))) 0x50000 = 36 := by
    decide +kernel
  refine ⟨⟨able_firmware _, firmware_reserved _, hlast, ?_⟩, able_firmware _, firmware_reserved _,
    by decide +kernel, ?_⟩
  · obtain ⟨s, pmm, hcall, hshows, -⟩ := firmware_getvadr 0x50ff0 (lengths [(510, 36)]) rfl
      (by decide) (by rw [hlast]; decide)
    refine ⟨s, pmm, .single hcall, fun hcovers => ?_⟩
    -- the table has bytes in a second page, which the layout does not have
    have hpage := covers_tableAdr_iff.mp hcovers 1 (by decide)
    rw [hshows.pages, hlast, firmware_behind (by decide)] at hpage
    cases hpage
  · obtain ⟨s₁, pmm₁, hcall₁, hshows₁, hable⟩ :=
      firmware_getvadr 0x50000 (lengths [(0, 36), (256, 5000)])
      rfl (by decide) (by rw [hfirst]; decide)
    obtain ⟨s₂, pmm₂, hcall₂, hshows⟩ := firmware_getvadr_again 0x50800 hshows₁ rfl
      (by rw [hfirst]; decide) hable
    refine ⟨s₂, pmm₂, .snoc (.single hcall₁) hcall₂, fun hcovers => ?_⟩
    -- the pages are those of the short table, and there is only one
    have hpage := covers_tableAdr_iff.mp hcovers 1 (by decide)
    rw [hshows.pages, hfirst, firmware_behind (by decide)] at hpage
    cases hpage

end HeliumOS.Acpi
