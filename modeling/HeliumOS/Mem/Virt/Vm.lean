import HeliumOS.Mem.Virt.VCache

/-!
# Physical Memory and Address Translation

`Vm` is the part of the machine that the mapper works on: physical memory as words, the root
table in `CR3`, and the virtual cache.  Every access of the kernel to a page table goes through
a virtual page, so reading and writing start with a translation.

- `Vm.translate` is the four-level walk of the processor, huge pages included.
- `Vm.Inv`: the tables form a tree, the four P1 tables of the virtual cache are where the windows
  expect them, and the window of the P4 table shows the root.

The P1 tables of the virtual cache are addressed by their frames.  In the kernel they are reached
through the first four windows, which are never given up.  Access rights are not modelled.
-/

namespace HeliumOS.Mem.Virt

open HeliumOS.Lib HeliumOS.Lib.Radix

/-! ## State -/

/-- A window of the virtual cache: its P1 table and its entry. -/
abbrev Window := Fin 4 × Fin 512

/-- The page of a window. -/
def Window.page (s : Window) : Page := slotPage s.1 s.2

theorem Window.page_injective : Function.Injective Window.page := by
  intro s t h
  exact Prod.ext_iff.mpr (slotPage_injective h)

/-- The state of virtual memory.  `p1` are the P1 tables of the virtual cache, and `p4table` is
the window through which `P4TABLE` is accessed. -/
structure Vm where
  mem : Store PhysFrame (Fin 512) PageTableEntry
  cr3 : PhysFrame
  p1 : Fin 4 → PhysFrame
  vcacheState : VCacheState
  p4table : Page

namespace Vm

/-- The table reached from the root along a path. -/
def walk (vm : Vm) (p : List (Fin 512)) : Option PhysFrame :=
  Radix.walk PageTableEntry.frame vm.mem vm.cr3 p

/-- The frames in use as page tables. -/
def tables (vm : Vm) : Set PhysFrame := Radix.tables PageTableEntry.frame vm.mem vm.cr3 3

end Vm

/-! ## Translation -/

/-- The frame and the flags that a page translates to. -/
structure Translation where
  frame : PhysFrame
  flags : PageTableFlags
  deriving DecidableEq

/-- The frame of page `i1` inside a 2 MiB page. -/
def largeFrame (f : PhysFrame) (i1 : Fin 512) : PhysFrame :=
  ⟨f.num / 512 * 512 + i1, by have := f.isLt; have := i1.isLt; omega⟩

/-- The frame of page `i1` of part `i2` of a 1 GiB page. -/
def giantFrame (f : PhysFrame) (i2 i1 : Fin 512) : PhysFrame :=
  ⟨f.num / 262144 * 262144 + (i2 * 512 + i1), by
    have := f.isLt; have := i1.isLt; have := i2.isLt; omega⟩

/-- What the processor makes of the word at the end of a walk.  Indices left over mean that the
word is in a P2 or P3 table; a present word is then a huge page. -/
def resolve : PageTableEntry × List (Fin 512) → Option Translation
  | (w, []) => if w.present then some ⟨w.addr, w.flags⟩ else none
  | (w, [i1]) => if w.present then some ⟨largeFrame w.addr i1, w.flags⟩ else none
  | (w, [i2, i1]) => if w.present then some ⟨giantFrame w.addr i2 i1, w.flags⟩ else none
  | _ => none

theorem resolve_of_not_present {w : PageTableEntry} (h : w.present = false)
    (rest : List (Fin 512)) : resolve (w, rest) = none := by
  unfold resolve
  split <;> simp_all

namespace Vm

/-- The translation of a page. -/
def translate (vm : Vm) (page : Page) : Option Translation :=
  resolve (stop PageTableEntry.frame vm.mem vm.cr3 page.path page.p1Index)

/-- A walk that ends on an unused word finds no translation. -/
theorem translate_eq_none {vm : Vm} {page : Page} {q r : List (Fin 512)} {k : Fin 512}
    {f : PhysFrame} (hpath : page.path = q ++ k :: r) (hw : vm.walk q = some f)
    (hzero : vm.mem f k = 0) :
    vm.translate page = none := by
  have hnone : (vm.mem f k).frame = none := by rw [hzero, PageTableEntry.frame_zero]
  rw [translate, hpath, stop_of_stuck hw hnone, hzero]
  exact resolve_of_not_present PageTableEntry.present_zero _

/-- The frame behind a page; a missing translation is a page fault. -/
def frameOf (vm : Vm) (page : Page) : Except Panic PhysFrame :=
  match vm.translate page with
  | some t => .ok t.frame
  | none => .error .pageFault

/-- Replace one word of physical memory. -/
def setEntry (vm : Vm) (f : PhysFrame) (i : Fin 512) (w : PageTableEntry) : Vm :=
  { vm with mem := vm.mem.set f i w }

/-- Clear a frame of physical memory. -/
def clearFrame (vm : Vm) (f : PhysFrame) : Vm := { vm with mem := vm.mem.fill f 0 }

/-- Read entry `i` of the table at `page`. -/
def read (vm : Vm) (page : Page) (i : Fin 512) : Except Panic PageTableEntry := do
  let f ← vm.frameOf page
  .ok (vm.mem f i)

/-- Write entry `i` of the table at `page`. -/
def write (vm : Vm) (page : Page) (i : Fin 512) (w : PageTableEntry) : Except Panic Vm := do
  let f ← vm.frameOf page
  .ok (vm.setEntry f i w)

/-- Clear the page. -/
def clear (vm : Vm) (page : Page) : Except Panic Vm := do
  let f ← vm.frameOf page
  .ok (vm.clearFrame f)

/-! ## The virtual cache in memory -/

/-- The virtual cache, with the contents of its tables. -/
def vcache (vm : Vm) : VCache := ⟨fun i => vm.mem (vm.p1 i), vm.vcacheState⟩

/-- Write the virtual cache back. -/
def withVCache (vm : Vm) (vc : VCache) : Vm where
  mem := fun f =>
    match (List.finRange 4).find? fun i => vm.p1 i = f with
    | some i => vc.p1 i
    | none => vm.mem f
  cr3 := vm.cr3
  p1 := vm.p1
  vcacheState := vc.state
  p4table := vm.p4table

theorem withVCache_mem_of_ne {vm : Vm} {vc : VCache} {f : PhysFrame} (h : ∀ i, f ≠ vm.p1 i) :
    (vm.withVCache vc).mem f = vm.mem f := by
  have hnone : (List.finRange 4).find? (fun i => decide (vm.p1 i = f)) = none := by
    simp only [List.find?_eq_none, decide_eq_true_eq]
    exact fun i _ hi => h i hi.symm
  simp only [withVCache, hnone]

theorem withVCache_mem_p1 {vm : Vm} (hinj : Function.Injective vm.p1) (vc : VCache) (i : Fin 4) :
    (vm.withVCache vc).mem (vm.p1 i) = vc.p1 i := by
  have hsome : (List.finRange 4).find? (fun i' => decide (vm.p1 i' = vm.p1 i)) = some i := by
    cases hfind : (List.finRange 4).find? (fun i' => decide (vm.p1 i' = vm.p1 i)) with
    | none => simpa using List.find?_eq_none.mp hfind i (List.mem_finRange i)
    | some i' =>
      have heq : vm.p1 i' = vm.p1 i := by simpa using List.find?_some hfind
      rw [hinj heq]
  simp only [withVCache, hsome]

theorem vcache_withVCache {vm : Vm} (hinj : Function.Injective vm.p1) (vc : VCache) :
    (vm.withVCache vc).vcache = vc := by
  simp only [vcache]
  congr 1
  funext i
  exact withVCache_mem_p1 hinj vc i

/-- Changing one window is writing one word of memory. -/
theorem withVCache_mem_set {vm : Vm} (hinj : Function.Injective vm.p1) (vc : VCache) {i : Fin 4}
    {j : Fin 512} {w : PageTableEntry} (h : vc.p1 = vm.vcache.p1.set i j w) :
    (vm.withVCache vc).mem = vm.mem.set (vm.p1 i) j w := by
  funext f
  by_cases hf : ∃ i', f = vm.p1 i'
  · obtain ⟨i', rfl⟩ := hf
    rw [withVCache_mem_p1 hinj, h]
    funext k
    simp only [Store.set_apply, vcache, hinj.eq_iff]
  · rw [not_exists] at hf
    rw [withVCache_mem_of_ne hf, Store.set_of_ne _ _ _ (hf i)]

/-! ## Invariant -/

/-- The entry of a window. -/
def entry (vm : Vm) (s : Window) : PageTableEntry := vm.mem (vm.p1 s.1) s.2

/-- The window shows the frame. -/
def Shows (vm : Vm) (s : Window) (f : PhysFrame) : Prop :=
  (vm.entry s).present = true ∧ (vm.entry s).addr = f

/-- The window shows the frame and is not lazy. -/
def Open (vm : Vm) (s : Window) (f : PhysFrame) : Prop :=
  vm.Shows s f ∧ vm.vcacheState.p1Age s.1 s.2 = 0

/-- The path to the P1 table of window group `i`. -/
def areaPath (i : Fin 4) : List (Fin 512) := [256, 0, i.castLE (by decide)]

/-- The windows are where the virtual cache expects them. -/
def Wired (vm : Vm) : Prop := ∀ i, vm.walk (areaPath i) = some (vm.p1 i)

/-- Above the leaves every entry is unused or leads to a table: there are no huge pages and no
leftovers. -/
def Clean (vm : Vm) : Prop :=
  ∀ p f i, p.length < 3 → vm.walk p = some f → vm.mem f i = 0 ∨ ∃ g, (vm.mem f i).frame = some g

/-- Invariant of the page tables. -/
structure Inv (vm : Vm) : Prop where
  tree : IsTree PageTableEntry.frame vm.mem vm.cr3 3
  wired : vm.Wired
  root : ∃ s, vm.p4table = s.page ∧ vm.Open s vm.cr3

theorem slotPage_path (i : Fin 4) (j : Fin 512) : (slotPage i j).path = areaPath i := by
  obtain ⟨h4, h3, h2, -⟩ := slotPage_indices i j
  have h2' : (slotPage i j).p2Index = i.castLE (by decide) := Fin.ext h2
  rw [Page.path, h4, h3, h2', areaPath]

/-- The path of a page leads to a P1 table of the virtual cache only inside its area. -/
theorem inArea_of_path {page : Page} {i : Fin 4} (h : page.path = areaPath i) : InArea page := by
  have hpage : page = slotPage i page.p1Index :=
    Page.eq_of_path_eq (h.trans (slotPage_path i _).symm) (by simp)
  rw [hpage]
  exact slotPage_inArea _ _

theorem Inv.p1_injective {vm : Vm} (hinv : vm.Inv) : Function.Injective vm.p1 := by
  intro i i' h
  have hpath := hinv.tree (areaPath i) (areaPath i') (vm.p1 i) (by simp [areaPath])
    (by simp [areaPath]) (hinv.wired i) (h ▸ hinv.wired i')
  simpa [areaPath] using hpath

/-! ## Access through a window -/

namespace Wired

variable {vm : Vm} (hwired : vm.Wired) {s : Window} {f : PhysFrame}
include hwired

theorem translate_window (s : Window) :
    vm.translate s.page = resolve (vm.entry s, []) := by
  rw [translate, Window.page, slotPage_path, slotPage_p1Index, stop_of_walk (hwired s.1), entry]

theorem frameOf_window (h : vm.Shows s f) : vm.frameOf s.page = .ok f := by
  rw [frameOf, hwired.translate_window, resolve, if_pos h.1]
  exact congrArg _ h.2

theorem read_window (h : vm.Shows s f) (i : Fin 512) : vm.read s.page i = .ok (vm.mem f i) := by
  rw [read, hwired.frameOf_window h, except_ok_bind]

theorem write_window (h : vm.Shows s f) (i : Fin 512) (w : PageTableEntry) :
    vm.write s.page i w = .ok (vm.setEntry f i w) := by
  rw [write, hwired.frameOf_window h, except_ok_bind]

theorem clear_window (h : vm.Shows s f) : vm.clear s.page = .ok (vm.clearFrame f) := by
  rw [clear, hwired.frameOf_window h, except_ok_bind]

end Wired

end Vm

end HeliumOS.Mem.Virt
