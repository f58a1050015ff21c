import HeliumOS.Lib.Loop
import HeliumOS.Fs.Tar

/-!
# The Initial Ramdisk

`fs/initrd.rs`: `init_map` walks over the headers of a tar archive and collects its files and
directories; `open` and `open_file` look them up.
-/

namespace HeliumOS.Fs

open HeliumOS.Lib HeliumOS.Mem

/-! ## Definitions -/

/-- `INITRD_START`. -/
def INITRD_START : ℕ := 0xFFFF810000000000

/-- `BOOTBOOT_MMIO`: from here on the loader has mapped the address space. -/
def BOOTBOOT_MMIO : ℕ := 0xfffffffff8000000

/-- The initrd as `init` has mapped it: its size and the bytes from `INITRD_START` on.  The mapping
stays below the areas of the loader, so that no address of it overflows. -/
structure Initrd where
  size : ℕ
  mem : ℕ → BitVec 8
  below : INITRD_START + size ≤ BOOTBOOT_MMIO

/-- `InitrdEntry`. -/
inductive InitrdEntry where
  | file (content : File)
  | directory

/-- `BTreeMap<String, InitrdEntry>`. -/
abbrev InitrdMap := String → Option InitrdEntry

/-- `str::ends_with`. -/
def endsWith (s suffix : String) : Bool := suffix.toList.isSuffixOf s.toList

/-- The header at an address. -/
def Initrd.header (rd : Initrd) (current : ℕ) : TarHeader :=
  ⟨current, fun k => rd.mem (current - INITRD_START + k)⟩

/-- The entry for a header of a supported type. -/
def initrdEntry (ch : TarHeader) : TarEntryType → Except Panic InitrdEntry
  | .file => do
    let content ← ch.content
    .ok (.file content)
  | .directory => .ok .directory

/-- What the loop of `init_map` does with a header: entries of other types and the names `.` and
`..` are skipped. -/
def insertHeader (ch : TarHeader) (initrd : InitrdMap) : Except Panic InitrdMap :=
  match ch.entryType with
  | none => .ok initrd
  | some ftype => do
    let entryName ← ch.name
    if endsWith entryName "/." || endsWith entryName "/.." then .ok initrd
    else do
      let entry ← initrdEntry ch ftype
      .ok (Function.update initrd entryName (some entry))

/-- One turn of the loop of `init_map`.  It breaks at the end of the initrd, and at a block that is
no header; otherwise the next header is behind the content. -/
def initStep (rd : Initrd) : ℕ × InitrdMap → Except Panic (Option (ℕ × InitrdMap))
  | (current, initrd) => do
    let stop ← checkedAdd 64 Panic.initrdOverflow current headerSize
    let finish ← checkedAdd 64 Panic.initrdOverflow INITRD_START rd.size
    if finish < stop then .ok none
    else do
      -- `as_ref().unwrap()`
      ensure Panic.initrdNull (current ≠ 0)
      let ch := rd.header current
      if ch.check then do
        -- the cursor moves on before the entry is looked at
        let entrySize ← ch.size
        let padded ← checkedAlignUp 64 Panic.initrdOverflow entrySize 512
        let next ← checkedAdd 64 Panic.initrdOverflow stop padded
        let initrd ← insertHeader ch initrd
        .ok (some (next, initrd))
      else .ok none

/-- The bytes from the current header to the end of the initrd. -/
def Initrd.remaining (rd : Initrd) (s : ℕ × InitrdMap) : ℕ := INITRD_START + rd.size - s.1

/-- Every turn comes closer to the end. -/
theorem initStep_progresses (rd : Initrd) : Progresses (initStep rd) rd.remaining := by
  rintro ⟨current, initrd⟩ ⟨next, initrd'⟩ h
  simp only [initStep, except_bind_eq_ok, checkedAdd_eq_ok] at h
  obtain ⟨_, ⟨-, rfl⟩, _, ⟨-, rfl⟩, h⟩ := h
  unfold headerSize at h
  split at h
  · cases h
  · simp only [except_bind_eq_ok] at h
    obtain ⟨-, -, h⟩ := h
    split at h
    · simp only [except_bind_eq_ok, checkedAdd_eq_ok] at h
      obtain ⟨_, -, _, -, _, ⟨-, rfl⟩, _, -, h⟩ := h
      cases h
      unfold Initrd.remaining
      omega
    · cases h

/-- `init_map`. -/
def initMap (rd : Initrd) : Except Panic InitrdMap := do
  let (_, initrd) ← loop (initStep rd) rd.remaining (initStep_progresses rd)
    (INITRD_START, fun _ => none)
  .ok initrd

/-- `open`, given what `INITRD` contains. -/
def openEntry (initrd : Option InitrdMap) (path : String) : Except Panic (Option InitrdEntry) :=
  match initrd with
  | none => .error .initrdMissing
  | some initrd => .ok (initrd path)

/-- `open_file`. -/
def openFile (initrd : Option InitrdMap) (path : String) : Except Panic (Option File) := do
  match ← openEntry initrd path with
  | none => .ok none
  | some (.file content) => .ok (some content)
  | some .directory => .ok none

end HeliumOS.Fs
