import HeliumOS.Proc.MemoryMap

/-!
# The Layout of a Program

What an ELF file asks the loader for, in terms of the file alone.

- A `Region` is a range of the user half with its contents.  The regions of a file are its `Load`
  segments, in the order of the headers, and after them the stack.
- A region takes whole pages.  Where the pages of two regions meet, the later region is the
  `owner` of the page: its mapping is applied last.
-/

namespace HeliumOS

open HeliumOS.Lib HeliumOS.Mem HeliumOS.Mem.Virt

/-! ## Regions -/

namespace Proc

/-- `memSize` bytes of the user half from `vadr` on: the first ones are given, the others are
zero. -/
structure Region where
  vadr : ℕ
  memSize : ℕ
  bytes : List (BitVec 8)
  flags : PageTableFlags

namespace Region

/-- The number of the first page. -/
def first (r : Region) : ℕ := r.vadr / pageSize

/-- Where the region starts in its first page. -/
def offset (r : Region) : ℕ := r.vadr - r.first * pageSize

/-- How many pages the region takes. -/
def count (r : Region) : ℕ := alignUp (r.memSize + r.vadr - r.first * pageSize) pageSize / pageSize

/-- Page number `n` is a page of the region. -/
def Maps (r : Region) (n : ℕ) : Prop := r.first ≤ n ∧ n < r.first + r.count

instance (r : Region) (n : ℕ) : Decidable (r.Maps n) := inferInstanceAs (Decidable (_ ∧ _))

/-- The address is one of the region. -/
def Holds (r : Region) (adr : ℕ) : Prop := r.vadr ≤ adr ∧ adr < r.vadr + r.memSize

instance (r : Region) (adr : ℕ) : Decidable (r.Holds adr) := inferInstanceAs (Decidable (_ ∧ _))

/-- The byte at an address of a page of the region, where `old` was before: the region writes to
its own addresses, and not to the rest of its first and last page. -/
def fill (r : Region) (adr : ℕ) (old : BitVec 8) : BitVec 8 :=
  if r.Holds adr then r.bytes.getD (adr - r.vadr) 0 else old

/-- A region that the loader accepts. -/
structure Wf (r : Region) : Prop where
  user : r.vadr + r.memSize < USERSPACE_TOP
  fits : r.bytes.length ≤ r.memSize
  small : r.flags.contains .HUGE_PAGE = false

section Lemmas

variable {r : Region}

theorem vadr_eq (r : Region) : r.first * pageSize + r.offset = r.vadr := by
  simp only [offset, first, pageSize]
  omega

/-- The region lies in its pages. -/
theorem offset_add_le (r : Region) : r.offset + r.memSize ≤ r.count * pageSize := by
  simp only [offset, count, first, alignUp, pageSize]
  omega

/-- The pages of a region lie in the user half. -/
theorem pages_le (huser : r.vadr + r.memSize < USERSPACE_TOP) : r.first + r.count ≤ 2 ^ 35 := by
  simp only [count, first, alignUp, pageSize, USERSPACE_TOP] at huser ⊢
  omega

theorem Holds.maps {adr : ℕ} (h : r.Holds adr) : r.Maps (adr / pageSize) := by
  have hle := r.offset_add_le
  have hvadr := r.vadr_eq
  simp only [Holds] at h
  simp only [Maps, pageSize] at hle hvadr ⊢
  omega

end Lemmas

end Region

/-- The region that a page belongs to in the end: the last one that takes it. -/
def owner (regions : List Region) (n : ℕ) : Option Region := regions.reverse.find? fun r => r.Maps n

section Owner

variable {regions : List Region} {r : Region} {n : ℕ}

theorem owner_snoc (regions : List Region) (r : Region) (n : ℕ) :
    owner (regions ++ [r]) n = if r.Maps n then some r else owner regions n := by
  rw [owner, List.reverse_append, List.reverse_singleton, List.singleton_append, List.find?_cons]
  by_cases h : r.Maps n <;> simp [h, owner]

theorem owner_spec (h : owner regions n = some r) : r ∈ regions ∧ r.Maps n := by
  have hmem := List.mem_of_find?_eq_some h
  have hmaps := List.find?_some h
  exact ⟨List.mem_reverse.mp hmem, by simpa using hmaps⟩

/-- A region owns its pages unless a later one takes them. -/
theorem owner_of_last (pre : List Region) {post : List Region} (hr : r.Maps n)
    (hlater : ∀ r' ∈ post, ¬ r'.Maps n) :
    owner (pre ++ r :: post) n = some r := by
  have hnone : (post.reverse.find? fun r => r.Maps n) = none := by
    rw [List.find?_eq_none]
    intro r' hr'
    simpa using hlater r' (List.mem_reverse.mp hr')
  rw [owner, List.reverse_append, List.reverse_cons, List.append_assoc, List.find?_append, hnone,
    Option.none_or, List.singleton_append, List.find?_cons_of_pos (by simpa using hr)]

/-- When a later region takes the page, one of the later regions owns it. -/
theorem owner_later (pre : List Region) (r : Region) {post : List Region}
    (hlater : ∃ r' ∈ post, r'.Maps n) :
    ∃ r' ∈ post, r'.Maps n ∧ owner (pre ++ r :: post) n = some r' := by
  obtain ⟨r', hr', hmaps⟩ := hlater
  have hsome : (post.reverse.find? fun r => r.Maps n).isSome := by
    rw [List.find?_isSome]
    exact ⟨r', List.mem_reverse.mpr hr', by simpa using hmaps⟩
  obtain ⟨r'', hfound⟩ := Option.isSome_iff_exists.mp hsome
  obtain ⟨hmem, hmaps'⟩ := owner_spec hfound
  refine ⟨r'', hmem, hmaps', ?_⟩
  rw [owner, List.reverse_append, List.reverse_cons, List.append_assoc, List.find?_append, hfound,
    Option.some_or]

end Owner

/-- The number of pages of the regions, those that two of them share counted twice. -/
def pageTotal (regions : List Region) : ℕ := (regions.map Region.count).sum

@[simp] theorem pageTotal_append (rs rs' : List Region) :
    pageTotal (rs ++ rs') = pageTotal rs + pageTotal rs' := by
  simp [pageTotal]

@[simp] theorem pageTotal_singleton (r : Region) : pageTotal [r] = r.count := by
  simp [pageTotal]

/-- The region of the stack. -/
def stackRegion : Region where
  vadr := USERSTACK_TOP.startAddress
  memSize := USERSTACK_SIZE
  bytes := []
  flags := .USER_ACCESSIBLE ||| .WRITABLE

theorem stackRegion_wf : stackRegion.Wf := ⟨by decide, by decide, by decide⟩

end Proc

/-! ## The regions of a file -/

namespace Elf

open HeliumOS.Proc

/-- The program headers with the indices from `index` on, `n` of them. -/
def ElfFile.headersFrom (elf : ElfFile) (n index : ℕ) : List ProgramHeader :=
  (List.range' index n).map fun i => .read elf.content (elf.header.phoff + i * elf.header.phentSize)

/-- The `Load` headers of a file. -/
def ElfFile.loads (elf : ElfFile) : List ProgramHeader :=
  (elf.headersFrom elf.header.phtLen 0).filter ProgramHeader.isLoad

/-- The region that a `Load` header asks for. -/
def ElfFile.segment (elf : ElfFile) (entry : ProgramHeader) : Region where
  vadr := entry.vadr
  memSize := entry.memSize
  bytes := (List.range entry.fileSize).map fun k => elf.content.mem (entry.offset + k)
  flags := entry.memoryFlags ||| .USER_ACCESSIBLE

/-- The regions of a program, in the order in which they are loaded. -/
def ElfFile.regions (elf : ElfFile) : List Region := elf.loads.map elf.segment ++ [stackRegion]

theorem ElfFile.segment_byte (elf : ElfFile) (entry : ProgramHeader) (j : ℕ) :
    (elf.segment entry).bytes.getD j 0 =
      if j < entry.fileSize then elf.content.mem (entry.offset + j) else 0 := by
  split_ifs with h <;> simp [segment, List.getD_eq_getElem?_getD, h]

end Elf

end HeliumOS
