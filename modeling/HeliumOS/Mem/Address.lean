import HeliumOS.Lib.Checked

/-!
# Addresses, Pages and Frames

The address types of the `x86_64` crate as the kernel uses them, at the granularity of 4 KiB.

- `PhysFrame` is `PhysFrame<Size4KiB>`, kept as its frame number.  A `PhysAddr` has 52 bits, so
  a frame number has 40.
- `VirtAddr` and `Page` are canonical 48-bit addresses: bits 47 to 63 are equal.
- The operations that panic in the crate return `Except Panic`.

`Panic` lists the places at which the modelled code can panic, one constructor for each.
-/

namespace HeliumOS

/-- The panics of the modelled code, by place. -/
inductive Panic where
  -- the `x86_64` crate
  | physAddrInvalid | virtAddrInvalid | alignOverflow | entryHugeFlag
  -- `mem/phys.rs` and `bootboot.rs`
  | bootbootSize | unknownMMapType | headerSizeOverflow | noHeaderPlace | emptyBitmap
  | headerNull | headerUnreachable | segmentMagic | wordFull | bitmapIndex | mapHeader | headerShift
  -- `mem/virt`
  | outOfFrames | entryFrame | remapFailed | vcacheNoGroup | vcacheNoSlot
  | freecountUnderflow | lazycountOverflow | vcacheIndex | pageFault
  | vcacheInitEntries | vcacheInitMap | vcacheInitOrder | mapperInit
  -- `mem/mod.rs` and `mem/heap.rs`
  | sizeOverflow | mapManyFailed | vallocNoFrame | vallocMap | ktableOverflow | expandOverflow
  | headOverflow
  -- `proc` and `elf.rs`
  | noProcInfo | noInit | notRunning | clockUnderflow | lifeOverflow | idOverflow
  | headerOverflow | windowOverflow | loadOverflow | sliceOverflow | copyRange | applyFailed
  | syscallNoTask | getPidNoTask | pathInvalid
  -- `dev/framebuffer.rs`
  | pixelOverflow | pixelFormat | pixelWidth | pixelHeight | pixelOffset | pixelPointer
  -- `fs`
  | tarName | tarSize | initrdOverflow | initrdNull | initrdMissing
  -- `mem/gdt.rs`, `acpi` and `proc/apic`
  | gdtFull | madtChecksum | madtSignature | madtEntryType | numcoresOverflow | ioapicAddress
  | ioapicMap | acpiMap | xsdtIndex
  -- `interrupts/pic.rs`, and the calibration in `proc/apic`
  | pitUnderflow | timerUnderflow | quantumOverflow
  deriving DecidableEq, Repr

namespace Mem

open HeliumOS.Lib

/-- `mem::PAGE_SIZE`. -/
def pageSize : ℕ := 0x1000

/-! ## Physical frames -/

/-- `PhysFrame<Size4KiB>`, by frame number. -/
@[ext] structure PhysFrame where
  num : ℕ
  isLt : num < 2 ^ 40
  deriving DecidableEq

/-- `PhysFrame::start_address`. -/
def PhysFrame.startAddress (f : PhysFrame) : ℕ := f.num * pageSize

/-- `PhysAddr::new`: physical addresses have 52 bits. -/
def physAddr (a : ℕ) : Except Panic ℕ :=
  if a < 2 ^ 52 then .ok a else .error .physAddrInvalid

theorem physAddr_eq_ok {a b : ℕ} : physAddr a = .ok b ↔ a < 2 ^ 52 ∧ b = a := guard_eq_ok

/-- `PhysFrame::containing_address`. -/
def frameContaining (a : ℕ) : Except Panic PhysFrame :=
  if h : a < 2 ^ 52 then .ok ⟨a / pageSize, by unfold pageSize; omega⟩
  else .error .physAddrInvalid

theorem frameContaining_eq_ok {a : ℕ} {f : PhysFrame} :
    frameContaining a = .ok f ↔ a < 2 ^ 52 ∧ f.num = a / pageSize := by
  unfold frameContaining
  split_ifs with h
  · rw [Except.ok.injEq, PhysFrame.ext_iff]
    exact ⟨fun e => ⟨h, e.symm⟩, fun e => e.2.symm⟩
  · exact ⟨fun e => (by cases e), fun e => absurd e.1 h⟩

theorem exists_frameContaining {a : ℕ} (h : a < 2 ^ 52) : ∃ f, frameContaining a = .ok f :=
  ⟨_, dif_pos h⟩

/-- `frame + i`, as `PhysFrame::from_start_address(start + i * PAGE_SIZE).unwrap()`. -/
def PhysFrame.add (f : PhysFrame) (i : ℕ) : Except Panic PhysFrame :=
  if h : f.num + i < 2 ^ 40 then .ok ⟨f.num + i, h⟩ else .error .physAddrInvalid

theorem PhysFrame.add_eq_ok {f g : PhysFrame} {i : ℕ} :
    f.add i = .ok g ↔ g.num = f.num + i := by
  unfold PhysFrame.add
  split_ifs with h
  · simp [PhysFrame.ext_iff, eq_comm]
  · have := g.isLt
    exact ⟨fun e => (by cases e), fun e => absurd e (by omega)⟩

@[simp] theorem PhysFrame.add_zero (f : PhysFrame) : f.add 0 = .ok f :=
  PhysFrame.add_eq_ok.mpr rfl

/-! ## Virtual addresses and pages -/

/-- `VirtAddr`: a canonical 64-bit address. -/
@[ext] structure VirtAddr where
  val : ℕ
  canonical : val < 2 ^ 47 ∨ 2 ^ 64 - 2 ^ 47 ≤ val ∧ val < 2 ^ 64
  deriving DecidableEq

/-- `Page<Size4KiB>`, by page number. -/
@[ext] structure Page where
  num : ℕ
  canonical : num < 2 ^ 35 ∨ 2 ^ 52 - 2 ^ 35 ≤ num ∧ num < 2 ^ 52
  deriving DecidableEq

theorem PhysFrame.canonical_of_low {f : PhysFrame} (h : f.num < 2 ^ 35) :
    f.num < 2 ^ 35 ∨ 2 ^ 52 - 2 ^ 35 ≤ f.num ∧ f.num < 2 ^ 52 := .inl h

/-- `Page::start_address`. -/
def Page.startAddress (p : Page) : ℕ := p.num * pageSize

/-- `Page::containing_address`. -/
def Page.containing (a : VirtAddr) : Page :=
  ⟨a.val / pageSize, by have := a.canonical; unfold pageSize; omega⟩

/-- `page + i`: the sum must be canonical again. -/
def Page.add (p : Page) (i : ℕ) : Except Panic Page :=
  if h : p.num + i < 2 ^ 35 ∨ 2 ^ 52 - 2 ^ 35 ≤ p.num + i ∧ p.num + i < 2 ^ 52 then
    .ok ⟨p.num + i, h⟩
  else .error .virtAddrInvalid

theorem Page.add_eq_ok {p q : Page} {i : ℕ} : p.add i = .ok q ↔ q.num = p.num + i := by
  unfold Page.add
  split_ifs with h
  · simp [Page.ext_iff, eq_comm]
  · have := q.canonical
    exact ⟨fun e => (by cases e), fun e => absurd e (by omega)⟩

@[simp] theorem Page.add_zero (p : Page) : p.add 0 = .ok p := Page.add_eq_ok.mpr rfl

/-! ## Table indices -/

/-- `page.p4_index()`. -/
def Page.p4Index (p : Page) : Fin 512 := ⟨p.num / 2 ^ 27 % 512, Nat.mod_lt _ (by decide)⟩

/-- `page.p3_index()`. -/
def Page.p3Index (p : Page) : Fin 512 := ⟨p.num / 2 ^ 18 % 512, Nat.mod_lt _ (by decide)⟩

/-- `page.p2_index()`. -/
def Page.p2Index (p : Page) : Fin 512 := ⟨p.num / 2 ^ 9 % 512, Nat.mod_lt _ (by decide)⟩

/-- `page.p1_index()`. -/
def Page.p1Index (p : Page) : Fin 512 := ⟨p.num % 512, Nat.mod_lt _ (by decide)⟩

/-- The path through P4, P3 and P2 to the P1 table of a page. -/
def Page.path (p : Page) : List (Fin 512) := [p.p4Index, p.p3Index, p.p2Index]

@[simp] theorem Page.path_length (p : Page) : p.path.length = 3 := rfl

/-- The four indices determine a canonical page. -/
theorem Page.eq_of_path_eq {p q : Page} (hpath : p.path = q.path) (h1 : p.p1Index = q.p1Index) :
    p = q := by
  simp only [Page.path, List.cons.injEq, and_true, Page.p4Index, Page.p3Index, Page.p2Index,
    Fin.mk.injEq] at hpath
  simp only [Page.p1Index, Fin.mk.injEq] at h1
  obtain ⟨h4, h3, h2⟩ := hpath
  have hp := p.canonical
  have hq := q.canonical
  ext
  omega

/-! ## Halves of the address space -/

/-- `KVMSPACE`, the first page of the kernel half: `0xFFFF800000000000`. -/
def kvmspace : Page := ⟨0xFFFF800000000, by decide⟩

/-- A page of the user half. -/
def Page.IsUser (p : Page) : Prop := p.num < 2 ^ 35

instance (p : Page) : Decidable p.IsUser := inferInstanceAs (Decidable (_ < _))

theorem Page.isUser_iff_lt_kvmspace (p : Page) : p.IsUser ↔ p.num < kvmspace.num := by
  have := p.canonical
  simp only [Page.IsUser, kvmspace]
  omega

end Mem

end HeliumOS
