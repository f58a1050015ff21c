import HeliumOS.Mem.Entry

/-!
# ELF Files

`elf.rs`: the file header, the iterator over program headers and the slices of a file.

The structures of the source are laid over the bytes of the file by pointer casts.  A `File`
therefore carries the memory from its first byte on, and `size` is only where the slice ends: the
reads of `parse` and of the iterator do not compare with it.
-/

namespace HeliumOS

open HeliumOS.Lib HeliumOS.Mem

/-- A byte slice in memory: its address, its length, and the bytes from its address on. -/
structure File where
  base : ℕ
  size : ℕ
  mem : ℕ → BitVec 8

/-- The little-endian number in `n` bytes from `off` on. -/
def File.le (f : File) : ℕ → ℕ → ℕ
  | _, 0 => 0
  | off, n + 1 => (f.mem off).toNat + 256 * f.le (off + 1) n

namespace Elf

/-! ## Headers -/

/-- `FileHeader`, with the fields of its `Identification`.  Fields that nothing reads are left
out. -/
structure FileHeader where
  magic : List (BitVec 8)
  idClass : ℕ
  endian : ℕ
  idVersion : ℕ
  version : ℕ
  entry : ℕ
  phoff : ℕ
  phentSize : ℕ
  phtLen : ℕ

/-- The header at the start of a file. -/
def FileHeader.read (f : File) : FileHeader where
  magic := [f.mem 0, f.mem 1, f.mem 2, f.mem 3]
  idClass := f.le 4 1
  endian := f.le 5 1
  idVersion := f.le 6 1
  version := f.le 20 4
  entry := f.le 24 8
  phoff := f.le 32 8
  phentSize := f.le 54 2
  phtLen := f.le 56 2

/-- `Identification::verify`: a little-endian 64-bit file. -/
def FileHeader.verifyId (h : FileHeader) : Bool :=
  h.magic == [0x7f, 0x45, 0x4c, 0x46] && h.idClass == 2 && h.endian == 1 && h.idVersion == 1

/-- `VirtAddr::try_new(a).is_ok()`. -/
def isCanonical (a : ℕ) : Bool := a < 2 ^ 47 || (2 ^ 64 - 2 ^ 47 ≤ a && a < 2 ^ 64)

/-- `FileHeader::verify`. -/
def FileHeader.verify (h : FileHeader) : Bool :=
  h.verifyId && h.version == 1 && isCanonical h.entry

/-- `ProgramHeader`, without the physical address. -/
structure ProgramHeader where
  ptype : ℕ
  flags : ℕ
  offset : ℕ
  vadr : ℕ
  fileSize : ℕ
  memSize : ℕ
  align : ℕ
  deriving DecidableEq, Repr

/-- The program header at offset `off`. -/
def ProgramHeader.read (f : File) (off : ℕ) : ProgramHeader where
  ptype := f.le off 4
  flags := f.le (off + 4) 4
  offset := f.le (off + 8) 8
  vadr := f.le (off + 16) 8
  fileSize := f.le (off + 32) 8
  memSize := f.le (off + 40) 8
  align := f.le (off + 48) 8

/-- `ProgramType::Load`. -/
def ProgramHeader.isLoad (h : ProgramHeader) : Bool := h.ptype == 1

/-- `ProgramHeader::writable`. -/
def ProgramHeader.writable (h : ProgramHeader) : Bool := h.flags.testBit 1

/-- `ProgramHeader::memory_flags`. -/
def ProgramHeader.memoryFlags (h : ProgramHeader) : PageTableFlags :=
  if h.writable then .empty ||| .WRITABLE else .empty

/-! ## Files -/

/-- `ElfFile`. -/
structure ElfFile where
  header : FileHeader
  content : File

/-- `ElfFile::parse`. -/
def ElfFile.parse (content : File) : Option ElfFile :=
  let header := FileHeader.read content
  if header.verify then some ⟨header, content⟩ else none

theorem ElfFile.parse_of_verify {content : File} (h : (FileHeader.read content).verify = true) :
    ElfFile.parse content = some ⟨.read content, content⟩ := if_pos h

/-- Item `index` of `iter_progheader`: the address of the header is computed with checked
additions. -/
def ElfFile.progHeader (elf : ElfFile) (index : ℕ) : Except Panic ProgramHeader := do
  let table ← checkedAdd 64 Panic.headerOverflow elf.content.base elf.header.phoff
  let _ ← checkedAdd 64 Panic.headerOverflow table (index * elf.header.phentSize)
  .ok (.read elf.content (elf.header.phoff + index * elf.header.phentSize))

/-- `ElfFile::slice`. -/
def ElfFile.slice (elf : ElfFile) (offset size : ℕ) : Except Panic (Option (List (BitVec 8))) := do
  let stop ← checkedAdd 64 Panic.sliceOverflow offset size
  if elf.content.size < stop then .ok none
  else .ok (some ((List.range size).map fun k => elf.content.mem (offset + k)))

/-- `VirtAddr::new_truncate`: bit 47 is copied to the bits above it. -/
def newTruncate (a : ℕ) : VirtAddr :=
  if h : a % 2 ^ 48 < 2 ^ 47 then ⟨a % 2 ^ 48, .inl h⟩
  else ⟨2 ^ 64 - 2 ^ 48 + a % 2 ^ 48, by omega⟩

/-- `FileHeader::entrypoint`. -/
def FileHeader.entrypoint (h : FileHeader) : VirtAddr := newTruncate h.entry

theorem newTruncate_of_lt {a : ℕ} (h : a < 2 ^ 47) : newTruncate a = ⟨a, .inl h⟩ := by
  have hmod : a % 2 ^ 48 = a := Nat.mod_eq_of_lt (by omega)
  unfold newTruncate
  rw [dif_pos (by omega)]
  exact VirtAddr.ext hmod

end Elf

end HeliumOS
