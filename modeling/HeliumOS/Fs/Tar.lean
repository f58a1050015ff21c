import HeliumOS.Elf
import HeliumOS.Lib.Utf8

/-!
# Tar Headers

`fs/tar.rs`.  A `TarHeader` is laid over memory by a pointer cast: it is given by its address and
the bytes from there on, and its fields are at the offsets of the packed structure.  The fields that
nothing reads are left out.
-/

namespace HeliumOS.Fs

open HeliumOS.Lib HeliumOS.Mem

/-- `TarHeader`. -/
structure TarHeader where
  base : ℕ
  mem : ℕ → BitVec 8

/-- `TarEntryType`. -/
inductive TarEntryType where
  | file
  | directory
  deriving DecidableEq, Repr

/-- `size_of::<TarHeader>()`. -/
def headerSize : ℕ := 512

/-! ## Parsing numbers -/

/-- `CStr::from_bytes_with_nul`: the first NUL must be the last byte, which is dropped. -/
def cstrFromBytesWithNul (bytes : List (BitVec 8)) : Option (List (BitVec 8)) :=
  if bytes.findIdx (· == 0) + 1 = bytes.length then some bytes.dropLast else none

/-- An octal digit. -/
def toDigit8 (b : BitVec 8) : Option ℕ :=
  if 0x30 ≤ b.toNat ∧ b.toNat < 0x38 then some (b.toNat - 0x30) else none

/-- The digits after the optional sign. -/
def stripSign (bytes : List (BitVec 8)) : List (BitVec 8) :=
  if bytes.head? = some 0x2b then bytes.tail else bytes

/-- `usize::from_str_radix` for radix 8.  The field of the header is too short for an overflow. -/
def fromStrRadix8 (s : String) : Option ℕ :=
  let digits := stripSign (utf8Bytes s)
  if digits = [] then none
  else digits.foldlM (fun n b => (toDigit8 b).map (8 * n + ·)) 0

/-! ## The header -/

namespace TarHeader

/-- `n` bytes of the header from offset `off` on. -/
def field (h : TarHeader) (off n : ℕ) : List (BitVec 8) :=
  (List.range n).map fun k => h.mem (off + k)

/-- The bytes before the first NUL. -/
def text (bytes : List (BitVec 8)) : List (BitVec 8) := bytes.take (bytes.findIdx (· == 0))

/-- `TarHeader::check`. -/
def check (h : TarHeader) : Bool :=
  -- `from_utf8(&self.ustar)`
  match fromUtf8 (h.field 257 6) with
  | none => false
  | some signature => signature == "ustar "

/-- `TarHeader::name`: the prefix is at offset 345 and the name at the start. -/
def name (h : TarHeader) : Except Panic String := do
  let pref ← unwrap Panic.tarName (fromUtf8 (text (h.field 345 155)))
  let name ← unwrap Panic.tarName (fromUtf8 (text (h.field 0 100)))
  .ok ("/" ++ pref ++ name)

/-- `TarHeader::size`. -/
def size (h : TarHeader) : Except Panic ℕ := do
  let bytes ← unwrap Panic.tarSize (cstrFromBytesWithNul (h.field 124 12))
  let sizeStr ← unwrap Panic.tarSize (fromUtf8 bytes)
  unwrap Panic.tarSize (fromStrRadix8 sizeStr)

/-- `TarHeader::content`: the bytes behind the header. -/
def content (h : TarHeader) : Except Panic File := do
  let size ← h.size
  .ok ⟨h.base + headerSize, size, fun k => h.mem (headerSize + k)⟩

/-- `TarHeader::entry_type`, by the byte at offset 156. -/
def entryType (h : TarHeader) : Option TarEntryType :=
  if h.mem 156 = 0x30 then some .file
  else if h.mem 156 = 0x35 then some .directory
  else none

end TarHeader

end HeliumOS.Fs
