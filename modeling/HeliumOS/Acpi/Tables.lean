import HeliumOS.Lib.ByteMemory
import HeliumOS.Lib.Checked
import HeliumOS.Lib.Run
import HeliumOS.Mem.Address

/-!
# The MADT

`acpi/tables.rs`: the header of a table, and the table that lists interrupt controllers and cores.
The source casts the address of an entry to the structure of its type; here each structure has a
function that reads its fields at their offsets.

- `View` is what can be read behind a reference: some bytes may not be mapped.
- `MadtRecord` is an entry as the ACPI specification encodes it, and `Madt.Holds` a table in memory.
- `next_of_slice` is what the iterator does at one record.
- `madt_decodes_iff`: the structure for `LocalApicNmi` has no header, so that its fields are read
  two bytes too early; all other entries are read as they were written.
-/

namespace HeliumOS.Acpi

open HeliumOS.Lib

/-! ## Headers -/

/-- The bytes behind a reference, by offset.  A byte that is not mapped cannot be read. -/
abbrev View := ℕ → Except Panic (BitVec 8)

namespace View

/-- The `n` bytes from offset `i` on. -/
def bytes (v : View) : ℕ → ℕ → Except Panic (List (BitVec 8))
  | _, 0 => .ok []
  | i, n + 1 => do
    let b ← v i
    let bs ← v.bytes (i + 1) n
    .ok (b :: bs)

/-- A view of memory that is mapped completely. -/
def ofMemory (m : ByteMemory) : View := fun k => .ok (m k)

/-- The bytes that can be read, and zero elsewhere. -/
def memory (v : View) : ByteMemory := fun k =>
  match v k with
  | .ok b => b
  | .error _ => 0

variable {v w : View} {m : ByteMemory} {i n : ℕ}

theorem memory_of_eq_ok {k : ℕ} {b : BitVec 8} (h : v k = .ok b) : v.memory k = b := by
  rw [memory, h]

@[simp] theorem memory_ofMemory (m : ByteMemory) : (ofMemory m).memory = m := rfl

theorem bytes_congr (h : ∀ k, i ≤ k → k < i + n → v k = w k) : v.bytes i n = w.bytes i n := by
  induction n generalizing i with
  | zero => rfl
  | succ n ih =>
    rw [bytes, bytes, h i le_rfl (by omega), ih fun k hlo hhi => h k (by omega) (by omega)]

/-- Several bytes can be read when each of them can. -/
theorem bytes_eq_ok {bs : List (BitVec 8)} :
    v.bytes i n = .ok bs ↔ (∀ k < n, ∃ b, v (i + k) = .ok b) ∧ bs = v.memory.slice i n := by
  induction n generalizing i bs with
  | zero => simp [bytes, ByteMemory.slice, eq_comm]
  | succ n ih =>
    have hslice : v.memory.slice i (n + 1) = v.memory i :: v.memory.slice (i + 1) n := by
      rw [Nat.add_comm n, ByteMemory.slice_add]
      rfl
    simp only [bytes, except_bind_eq_ok, ih, Except.ok.injEq, hslice]
    constructor
    · rintro ⟨b, hb, _, ⟨hrest, rfl⟩, rfl⟩
      refine ⟨fun k hk => ?_, by rw [memory_of_eq_ok hb]⟩
      cases k with
      | zero => exact ⟨b, hb⟩
      | succ k =>
        obtain ⟨c, hc⟩ := hrest k (by omega)
        exact ⟨c, by rw [← hc]; congr 1; omega⟩
    · rintro ⟨hall, rfl⟩
      obtain ⟨b, hb⟩ := hall 0 (by omega)
      rw [Nat.add_zero] at hb
      refine ⟨b, hb, _, ⟨fun k hk => ?_, rfl⟩, by rw [memory_of_eq_ok hb]⟩
      obtain ⟨c, hc⟩ := hall (k + 1) (by omega)
      exact ⟨c, by rw [← hc]; congr 1; omega⟩

@[simp] theorem bytes_ofMemory (m : ByteMemory) (i n : ℕ) :
    (ofMemory m).bytes i n = .ok (m.slice i n) :=
  bytes_eq_ok.mpr ⟨fun k _ => ⟨m (i + k), rfl⟩, rfl⟩

end View

namespace AcpiHeader

/-- `mem::size_of::<AcpiHeader>()`. -/
def byteSize : ℕ := 36

/-- The field `len`. -/
def len (v : View) : Except Panic ℕ := do
  let bytes ← v.bytes 4 4
  .ok (leNat bytes)

/-- `AcpiHeader::verify_checksum`. -/
def verifyChecksum (v : View) : Except Panic Bool := do
  let len ← len v
  let bytes ← v.bytes 0 len
  .ok (bytes.foldl (· + ·) 0 == 0)

/-- `AcpiHeader::signature`. -/
def signature (v : View) : Except Panic (List (BitVec 8)) := v.bytes 0 4

end AcpiHeader

/-! ## The MADT -/

/-- `MadtType`. -/
inductive MadtType where
  | localApic | ioApic | ioApicInterruptSourceOverride | ioApicNmiSource | localApicNmi
  | localApicAddressOverride | localApicExt2
  deriving DecidableEq, Repr

/-- The discriminant of a type. -/
def MadtType.tag : MadtType → BitVec 8
  | .localApic => 0
  | .ioApic => 1
  | .ioApicInterruptSourceOverride => 2
  | .ioApicNmiSource => 3
  | .localApicNmi => 4
  | .localApicAddressOverride => 5
  | .localApicExt2 => 9

/-- The type with a discriminant.  For other bytes the cast of the source is undefined. -/
def MadtType.ofTag (b : BitVec 8) : Option MadtType :=
  match b.toNat with
  | 0 => some .localApic
  | 1 => some .ioApic
  | 2 => some .ioApicInterruptSourceOverride
  | 3 => some .ioApicNmiSource
  | 4 => some .localApicNmi
  | 5 => some .localApicAddressOverride
  | 9 => some .localApicExt2
  | _ => none

theorem MadtType.ofTag_tag (t : MadtType) : MadtType.ofTag t.tag = some t := by cases t <;> rfl

/-- `MadtEntryHeader`. -/
structure MadtEntryHeader where
  mtype : MadtType
  len : BitVec 8
  deriving DecidableEq, Repr

/-- `MadtEntryLocalApic`. -/
structure MadtEntryLocalApic where
  header : MadtEntryHeader
  procid : BitVec 8
  apicid : BitVec 8
  flags : BitVec 32
  deriving DecidableEq, Repr

/-- `MadtEntryLocalApic::enabled`. -/
def MadtEntryLocalApic.enabled (e : MadtEntryLocalApic) : Bool := e.flags != 0

/-- `MadtEntryIoApic`. -/
structure MadtEntryIoApic where
  header : MadtEntryHeader
  ioapicid : BitVec 8
  res : BitVec 8
  ioapicAdr : BitVec 32
  gsib : BitVec 32
  deriving DecidableEq, Repr

/-- `MadtEntryIoApicInterruptSourceOverride`. -/
structure MadtEntryIoApicInterruptSourceOverride where
  header : MadtEntryHeader
  busSrc : BitVec 8
  irqSrc : BitVec 8
  gsi : BitVec 32
  flags : BitVec 16
  deriving DecidableEq, Repr

/-- `IoApicRedirectionSource`. -/
inductive IoApicRedirectionSource where
  | irq (irq : ℕ)
  | bus (bus : ℕ)
  deriving DecidableEq, Repr

namespace MadtEntryIoApicInterruptSourceOverride

/-- `MadtEntryIoApicInterruptSourceOverride::source`. -/
def source (e : MadtEntryIoApicInterruptSourceOverride) : IoApicRedirectionSource :=
  if e.busSrc ≠ 0 then .bus e.busSrc.toNat else .irq e.irqSrc.toNat

/-- `MadtEntryIoApicInterruptSourceOverride::destination`. -/
def destination (e : MadtEntryIoApicInterruptSourceOverride) : ℕ := e.gsi.toNat

end MadtEntryIoApicInterruptSourceOverride

/-- `MadtEntryLocalApicNmi`, which has no header. -/
structure MadtEntryLocalApicNmi where
  id : BitVec 8
  flags : BitVec 16
  lint : BitVec 8
  deriving DecidableEq, Repr

/-- `MadtEntry`. -/
inductive MadtEntry where
  | localApic (e : MadtEntryLocalApic)
  | ioApic (e : MadtEntryIoApic)
  | ioApicInterruptSourceOverride (e : MadtEntryIoApicInterruptSourceOverride)
  | localApicNmi (e : MadtEntryLocalApicNmi)
  | other (header : MadtEntryHeader)
  deriving DecidableEq, Repr

/-- The packed header of an entry. -/
def MadtEntryHeader.read (m : ByteMemory) (a : ℕ) : Except Panic MadtEntryHeader := do
  let mtype ← unwrap .madtEntryType (MadtType.ofTag (m.load 8 a))
  .ok ⟨mtype, m.load 8 (a + 1)⟩

/-- The cast to the structure of a type.  All structures are packed. -/
def MadtEntry.cast (m : ByteMemory) (a : ℕ) (header : MadtEntryHeader) : MadtEntry :=
  match header.mtype with
  | .localApic => .localApic ⟨header, m.load 8 (a + 2), m.load 8 (a + 3), m.load 32 (a + 4)⟩
  | .ioApic =>
    .ioApic ⟨header, m.load 8 (a + 2), m.load 8 (a + 3), m.load 32 (a + 4), m.load 32 (a + 8)⟩
  | .ioApicInterruptSourceOverride => .ioApicInterruptSourceOverride
      ⟨header, m.load 8 (a + 2), m.load 8 (a + 3), m.load 32 (a + 4), m.load 16 (a + 8)⟩
  | .localApicNmi => .localApicNmi ⟨m.load 8 a, m.load 16 (a + 1), m.load 8 (a + 3)⟩
  | _ => .other header

/-- `Madt`: the memory from the start of the table on. -/
structure Madt where
  mem : ByteMemory

namespace Madt

/-- `mem::size_of::<Madt>()`. -/
def byteSize : ℕ := 44

/-- The field `len` of the header. -/
def len (madt : Madt) : ℕ := (madt.mem.load 32 4).toNat

/-- `AcpiHeader::verify_checksum` for a table that is mapped completely. -/
def verifyChecksum (madt : Madt) : Bool := (madt.mem.slice 0 madt.len).foldl (· + ·) 0 == 0

/-- The bytes of `APIC`. -/
def signature : List (BitVec 8) := [0x41, 0x50, 0x49, 0x43]

/-- `Madt::from`, with the assertions of the debug profile. -/
def «from» (v : View) : Except Panic Madt := do
  let valid ← AcpiHeader.verifyChecksum v
  ensure .madtChecksum (valid = true)
  let sig ← AcpiHeader.signature v
  ensure .madtSignature (sig = signature)
  .ok ⟨v.memory⟩

theorem len_eq (m : ByteMemory) : (Madt.mk m).len = leNat (m.slice 4 4) := by
  have hlt : leNat (m.slice 4 4) < 2 ^ 32 := by
    have := leNat_lt (m.slice 4 4)
    rwa [ByteMemory.length_slice] at this
  rw [len, ByteMemory.load, BitVec.toNat_ofNat]
  exact Nat.mod_eq_of_lt hlt

theorem verifyChecksum_ofMemory (m : ByteMemory) :
    AcpiHeader.verifyChecksum (.ofMemory m) = .ok (Madt.mk m).verifyChecksum := by
  simp only [AcpiHeader.verifyChecksum, AcpiHeader.len, View.bytes_ofMemory, except_ok_bind,
    verifyChecksum, len_eq]

theorem from_ofMemory_eq_ok {m : ByteMemory} {madt : Madt} : Madt.from (.ofMemory m) = .ok madt ↔
    ((Madt.mk m).verifyChecksum = true ∧ m.slice 0 4 = signature) ∧ madt = ⟨m⟩ := by
  simp only [Madt.from, verifyChecksum_ofMemory, AcpiHeader.signature, View.bytes_ofMemory,
    except_ok_bind, except_bind_eq_ok, ensure_eq_ok, exists_const, Except.ok.injEq,
    View.memory_ofMemory, and_assoc]
  exact and_congr_right' (and_congr_right' eq_comm)

end Madt

/-- `MadtIterator`. -/
structure MadtIterator where
  madt : Madt
  cursor : ℕ

/-- `Madt::iter`. -/
def Madt.iter (madt : Madt) : MadtIterator := ⟨madt, byteSize⟩

/-- `MadtIterator::next`. -/
def MadtIterator.next (it : MadtIterator) : Except Panic (Option (MadtEntry × MadtIterator)) :=
  if it.madt.len ≤ it.cursor then .ok none
  else do
    let header ← MadtEntryHeader.read it.madt.mem it.cursor
    let entry := MadtEntry.cast it.madt.mem it.cursor header
    .ok (some (entry, { it with cursor := it.cursor + header.len.toNat }))

/-- How many bytes of an entry the loop of `acpi_handler` reads. -/
def MadtEntry.readSize : MadtEntry → ℕ
  | .localApic _ => 8
  | .ioApic _ => 12
  | .ioApicInterruptSourceOverride _ => 8
  | .localApicNmi _ => 4
  | .other _ => 2

/-- `MadtIterator::next` behind a reference that need not be mapped completely, together with the
fields that the loop of `acpi_handler` reads of the entry. -/
def MadtIterator.nextIn (v : View) (cursor : ℕ) : Except Panic (Option (MadtEntry × ℕ)) := do
  let len ← AcpiHeader.len v
  if len ≤ cursor then .ok none
  else do
    let _ ← v.bytes cursor 2
    let header ← MadtEntryHeader.read v.memory cursor
    let entry := MadtEntry.cast v.memory cursor header
    let _ ← v.bytes cursor entry.readSize
    .ok (some (entry, cursor + header.len.toNat))

theorem MadtIterator.nextIn_ofMemory (m : ByteMemory) (cursor : ℕ) :
    MadtIterator.nextIn (.ofMemory m) cursor =
      (MadtIterator.next ⟨⟨m⟩, cursor⟩).map (Option.map fun r => (r.1, r.2.cursor)) := by
  simp only [nextIn, next, AcpiHeader.len, View.bytes_ofMemory, except_ok_bind,
    View.memory_ofMemory, Madt.len_eq]
  split_ifs with h
  · rfl
  · cases MadtEntryHeader.read m cursor <;> rfl

/-- The loop that reads through a reference yields what the iterator does. -/
theorem MadtIterator.yields_nextIn {m : ByteMemory} {it : MadtIterator} {entries : List MadtEntry}
    (h : Yields MadtIterator.next it entries) (hm : it.madt = ⟨m⟩) :
    Yields (MadtIterator.nextIn (.ofMemory m)) it.cursor entries := by
  induction h with
  | @done it hnext =>
    refine .done ?_
    rw [nextIn_ofMemory, ← hm, hnext]
    rfl
  | @more it it' entry entries hnext _ ih =>
    have hsame : it'.madt = it.madt := by
      unfold MadtIterator.next at hnext
      split_ifs at hnext
      · cases hnext
      · obtain ⟨header, -, hnext⟩ := except_bind_eq_ok.mp hnext
        cases hnext
        rfl
    refine .more ?_ (ih (hsame.trans hm))
    rw [nextIn_ofMemory, ← hm, hnext]
    rfl

/-! ## The encoding -/

/-- The types that the decoder does not look into. -/
inductive OtherType where
  | ioApicNmiSource | localApicAddressOverride | localApicExt2
  deriving DecidableEq, Repr

def OtherType.mtype : OtherType → MadtType
  | .ioApicNmiSource => .ioApicNmiSource
  | .localApicAddressOverride => .localApicAddressOverride
  | .localApicExt2 => .localApicExt2

/-- An entry as the specification describes it.  The length of an entry of another type counts its
header. -/
inductive MadtRecord where
  | localApic (uid apicId : BitVec 8) (flags : BitVec 32)
  | ioApic (id reserved : BitVec 8) (address gsiBase : BitVec 32)
  | interruptSourceOverride (bus source : BitVec 8) (gsi : BitVec 32) (flags : BitVec 16)
  | localApicNmi (uid : BitVec 8) (flags : BitVec 16) (lint : BitVec 8)
  | other (type : OtherType) (len : BitVec 8) (payload : List (BitVec 8))
      (h : len.toNat = payload.length + 2)

namespace MadtRecord

/-- The bytes of a record. -/
def encode : MadtRecord → List (BitVec 8)
  | .localApic uid apicId flags =>
    wordBytes (0 : BitVec 8) ++ (wordBytes (8 : BitVec 8) ++ (wordBytes uid ++ (wordBytes apicId ++
      (wordBytes flags ++ []))))
  | .ioApic id reserved address gsiBase =>
    wordBytes (1 : BitVec 8) ++
      (wordBytes (12 : BitVec 8) ++
        (wordBytes id ++ (wordBytes reserved ++ (wordBytes address ++ (wordBytes gsiBase ++ [])))))
  | .interruptSourceOverride bus source gsi flags =>
    wordBytes (2 : BitVec 8) ++ (wordBytes (10 : BitVec 8) ++ (wordBytes bus ++ (wordBytes source ++
      (wordBytes gsi ++ (wordBytes flags ++ [])))))
  | .localApicNmi uid flags lint =>
    wordBytes (4 : BitVec 8) ++ (wordBytes (6 : BitVec 8) ++ (wordBytes uid ++ (wordBytes flags ++
      (wordBytes lint ++ []))))
  | .other type len payload _ => wordBytes type.mtype.tag ++ (wordBytes len ++ payload)

/-- The entry that a record stands for. -/
def entry : MadtRecord → MadtEntry
  | .localApic uid apicId flags => .localApic ⟨⟨.localApic, 8⟩, uid, apicId, flags⟩
  | .ioApic id reserved address gsiBase => .ioApic ⟨⟨.ioApic, 12⟩, id, reserved, address, gsiBase⟩
  | .interruptSourceOverride bus source gsi flags =>
    .ioApicInterruptSourceOverride
      ⟨⟨.ioApicInterruptSourceOverride, 10⟩, bus, source, gsi, flags⟩
  | .localApicNmi uid flags lint => .localApicNmi ⟨uid, flags, lint⟩
  | .other type len _ _ => .other ⟨type.mtype, len⟩

/-- The entry that the decoder makes of a record. -/
def decoded : MadtRecord → MadtEntry
  | .localApicNmi uid flags _ =>
    -- tag, length and identifier, and the low byte of the flags
    .localApicNmi ⟨4, uid ++ (6 : BitVec 8), flags.setWidth 8⟩
  | r => r.entry

end MadtRecord

/-- The table holds the records behind its header, and its length field is their total. -/
structure Madt.Holds (madt : Madt) (rs : List MadtRecord) : Prop where
  len : madt.len = Madt.byteSize + (rs.flatMap MadtRecord.encode).length
  body : madt.mem.slice Madt.byteSize (rs.flatMap MadtRecord.encode).length =
    rs.flatMap MadtRecord.encode

/-! ## One record -/

section Next

variable {madt : Madt} {a : ℕ}

/-- The iterator at an entry with a known header. -/
theorem next_of_header {t : MadtType} {len : BitVec 8} (hlt : a < madt.len)
    (htag : madt.mem.load 8 a = t.tag) (hlen : madt.mem.load 8 (a + 1) = len) :
    MadtIterator.next ⟨madt, a⟩ =
      .ok (some (MadtEntry.cast madt.mem a ⟨t, len⟩, ⟨madt, a + len.toNat⟩)) := by
  have hread : MadtEntryHeader.read madt.mem a = .ok ⟨t, len⟩ := by
    rw [MadtEntryHeader.read, htag, MadtType.ofTag_tag, hlen]
    rfl
  rw [MadtIterator.next, if_neg (Nat.not_le.mpr hlt), hread]
  rfl

/-- The bytes of a `LocalApicNmi` record, grouped as the structure without a header reads them. -/
theorem MadtRecord.encode_localApicNmi (uid : BitVec 8) (flags : BitVec 16) (lint : BitVec 8) :
    (MadtRecord.localApicNmi uid flags lint).encode =
      wordBytes (4 : BitVec 8) ++ (wordBytes (uid ++ (6 : BitVec 8)) ++
        (wordBytes (flags.setWidth 8) ++ (wordBytes ((flags >>> 8).setWidth 8) ++
          (wordBytes lint ++ [])))) := by
  have huid := uid.isLt
  have hflags := flags.isLt
  have happend : (uid ++ 6#8).toNat = uid.toNat * 256 + 6 := by
    rw [BitVec.toNat_append, ← Nat.shiftLeft_add_eq_or_of_lt (by decide), Nat.shiftLeft_eq]
    rfl
  simp only [MadtRecord.encode, wordBytes, leBytes, List.cons_append, List.nil_append,
    List.cons.injEq, and_true, true_and]
  refine ⟨?_, ?_, ?_, ?_⟩
  all_goals apply BitVec.eq_of_toNat_eq
  · simp [happend]
  · simp only [BitVec.toNat_ofNat, BitVec.ofNat_eq_ofNat, happend]
    omega
  · simp
  · simp [Nat.shiftRight_eq_div_pow]

/-- What the iterator does at a record. -/
theorem next_of_slice (r : MadtRecord) (hlt : a < madt.len)
    (h : madt.mem.slice a r.encode.length = r.encode) :
    MadtIterator.next ⟨madt, a⟩ = .ok (some (r.decoded, ⟨madt, a + r.encode.length⟩)) := by
  -- one case for each kind of record; the fields are loaded in the order of the encoding
  cases r with
  | localApic uid apicId flags =>
    obtain ⟨htag, h⟩ := ByteMemory.load_of_append (by decide) h
    obtain ⟨hlen, h⟩ := ByteMemory.load_of_append (by decide) h
    obtain ⟨huid, h⟩ := ByteMemory.load_of_append (by decide) h
    obtain ⟨hapic, h⟩ := ByteMemory.load_of_append (by decide) h
    obtain ⟨hflags, -⟩ := ByteMemory.load_of_append (by decide) h
    rw [next_of_header (t := .localApic) hlt htag hlen, MadtEntry.cast]
    simp only [← huid, ← hapic, ← hflags]
    rfl
  | ioApic id reserved address gsiBase =>
    obtain ⟨htag, h⟩ := ByteMemory.load_of_append (by decide) h
    obtain ⟨hlen, h⟩ := ByteMemory.load_of_append (by decide) h
    obtain ⟨hid, h⟩ := ByteMemory.load_of_append (by decide) h
    obtain ⟨hres, h⟩ := ByteMemory.load_of_append (by decide) h
    obtain ⟨hadr, h⟩ := ByteMemory.load_of_append (by decide) h
    obtain ⟨hgsib, -⟩ := ByteMemory.load_of_append (by decide) h
    rw [next_of_header (t := .ioApic) hlt htag hlen, MadtEntry.cast]
    simp only [← hid, ← hres, ← hadr, ← hgsib]
    rfl
  | interruptSourceOverride bus source gsi flags =>
    obtain ⟨htag, h⟩ := ByteMemory.load_of_append (by decide) h
    obtain ⟨hlen, h⟩ := ByteMemory.load_of_append (by decide) h
    obtain ⟨hbus, h⟩ := ByteMemory.load_of_append (by decide) h
    obtain ⟨hsource, h⟩ := ByteMemory.load_of_append (by decide) h
    obtain ⟨hgsi, h⟩ := ByteMemory.load_of_append (by decide) h
    obtain ⟨hflags, -⟩ := ByteMemory.load_of_append (by decide) h
    rw [next_of_header (t := .ioApicInterruptSourceOverride) hlt htag hlen, MadtEntry.cast]
    simp only [← hbus, ← hsource, ← hgsi, ← hflags]
    rfl
  | localApicNmi uid flags lint =>
    obtain ⟨htag, hrest⟩ := ByteMemory.load_of_append (by decide) h
    obtain ⟨hlen, -⟩ := ByteMemory.load_of_append (by decide) hrest
    -- the fields are read from the tag on
    rw [MadtRecord.encode_localApicNmi] at h
    obtain ⟨hid, h⟩ := ByteMemory.load_of_append (by decide) h
    obtain ⟨hflags, h⟩ := ByteMemory.load_of_append (by decide) h
    obtain ⟨hlint, -⟩ := ByteMemory.load_of_append (by decide) h
    rw [next_of_header (t := .localApicNmi) hlt htag hlen, MadtEntry.cast, MadtRecord.decoded]
    simp only [← hflags, ← hlint, hid]
    rfl
  | other type len payload hlength =>
    obtain ⟨htag, h⟩ := ByteMemory.load_of_append (by decide) h
    obtain ⟨hlen, -⟩ := ByteMemory.load_of_append (by decide) h
    have hsize : (MadtRecord.other type len payload hlength).encode.length = len.toNat := by
      simp only [MadtRecord.encode, List.length_append, length_wordBytes]
      omega
    rw [next_of_header hlt htag hlen, hsize]
    cases type <;> rfl

end Next

/-! ## The whole table -/

section Table

variable {madt : Madt} {rs : List MadtRecord}

theorem MadtRecord.encode_length_pos (r : MadtRecord) : 0 < r.encode.length := by
  cases r <;> simp [MadtRecord.encode, wordBytes, leBytes]

/-- The iterator behind some of the records yields the others. -/
theorem yields_from {a : ℕ} (hlen : madt.len = a + (rs.flatMap MadtRecord.encode).length)
    (hbody : madt.mem.slice a (rs.flatMap MadtRecord.encode).length =
      rs.flatMap MadtRecord.encode) :
    Yields MadtIterator.next ⟨madt, a⟩ (rs.map MadtRecord.decoded) := by
  induction rs generalizing a with
  | nil => exact .done (if_pos (by simp [hlen]))
  | cons r rs ih =>
    rw [List.flatMap_cons] at hlen hbody
    obtain ⟨hfirst, hrest⟩ := ByteMemory.slice_eq_append.mp hbody
    have hpos := r.encode_length_pos
    rw [List.length_append] at hlen
    refine .more (next_of_slice r (by omega) hfirst) (ih (by omega) hrest)

/-- What the iterator yields on a table in memory. -/
theorem Madt.Holds.yields (h : madt.Holds rs) :
    Yields MadtIterator.next madt.iter (rs.map MadtRecord.decoded) :=
  yields_from h.len h.body

/-- The one `LocalApicNmi` record that is read as it was written. -/
def MadtRecord.Faithful : MadtRecord → Prop
  | .localApicNmi uid flags lint => uid = 4 ∧ flags = 0x0406 ∧ lint = 6
  | _ => True

/-- A `LocalApicNmi` record is read without its header, so that tag, length with identifier, and the
low byte of the flags stand for its three fields. All other records are read as they were written.
-/
theorem MadtRecord.decoded_eq_entry_iff (r : MadtRecord) : r.decoded = r.entry ↔ r.Faithful := by
  cases r with
  | localApicNmi uid flags lint =>
    simp only [MadtRecord.decoded, MadtRecord.entry, MadtRecord.Faithful,
      MadtEntry.localApicNmi.injEq, MadtEntryLocalApicNmi.mk.injEq]
    constructor
    · rintro ⟨rfl, rfl, rfl⟩
      exact ⟨rfl, by decide, by decide⟩
    · rintro ⟨rfl, rfl, rfl⟩
      exact ⟨rfl, by decide, by decide⟩
  | _ => exact ⟨fun _ => trivial, fun _ => rfl⟩

/-- **When the iterator yields what was encoded.**  It ends, and yields one entry for each record,
in order.  They are the entries of the records exactly if each `LocalApicNmi` record happens to hold
the bytes of its own header again. -/
theorem madt_decodes_iff (h : madt.Holds rs) :
    Yields MadtIterator.next madt.iter (rs.map MadtRecord.decoded) ∧
      (Yields MadtIterator.next madt.iter (rs.map MadtRecord.entry) ↔ ∀ r ∈ rs, r.Faithful) := by
  refine ⟨h.yields, fun hentries r hr => ?_, fun hall => ?_⟩
  · have hsame := h.yields.unique hentries
    exact r.decoded_eq_entry_iff.mp (List.map_inj_left.mp hsame r hr)
  · have hsame : rs.map MadtRecord.entry = rs.map MadtRecord.decoded :=
      List.map_congr_left fun r hr => (r.decoded_eq_entry_iff.mpr (hall r hr)).symm
    rw [hsame]
    exact h.yields

end Table

/-- A table with the given records, and zero in the fields that the iterator does not read. -/
def tableOf (rs : List MadtRecord) : Madt where
  mem := (ByteMemory.write (fun _ => 0) 4
    (wordBytes (BitVec.ofNat 32 (Madt.byteSize + (rs.flatMap MadtRecord.encode).length)))).write
      Madt.byteSize (rs.flatMap MadtRecord.encode)

theorem tableOf_holds {rs : List MadtRecord}
    (h : Madt.byteSize + (rs.flatMap MadtRecord.encode).length < 2 ^ 32) :
    (tableOf rs).Holds rs where
  len := by
    have hload : (tableOf rs).mem.load 32 4 =
        BitVec.ofNat 32 (Madt.byteSize + (rs.flatMap MadtRecord.encode).length) := by
      rw [ByteMemory.load, tableOf, ByteMemory.slice_write_of_apart (.inr (by decide))]
      exact ByteMemory.load_store_self (by decide) _
    rw [Madt.len, hload, BitVec.toNat_ofNat, Nat.mod_eq_of_lt h]
  body := ByteMemory.slice_write_self

/-- The usual entry for all cores, `LINT1` as the source of NMIs: the decoder yields the identifier
4, flags made of length and identifier, and `LINT0`. -/
theorem localApicNmi_misread : (tableOf [.localApicNmi 0xff 0 1]).Holds [.localApicNmi 0xff 0 1] ∧
    Yields MadtIterator.next (tableOf [.localApicNmi 0xff 0 1]).iter
      [.localApicNmi ⟨4, 0xff06, 0⟩] ∧
    ¬ Yields MadtIterator.next (tableOf [.localApicNmi 0xff 0 1]).iter
      [.localApicNmi ⟨0xff, 0, 1⟩] := by
  have hholds : (tableOf [.localApicNmi 0xff 0 1]).Holds [.localApicNmi 0xff 0 1] :=
    tableOf_holds (by decide)
  refine ⟨hholds, hholds.yields, fun hyields => ?_⟩
  exact absurd (hholds.yields.unique hyields) (by decide)

/-- A table with one core. -/
theorem madt_decodes_localApic : (tableOf [.localApic 0 0 1]).Holds [.localApic 0 0 1] ∧
    Yields MadtIterator.next (tableOf [.localApic 0 0 1]).iter
      [.localApic ⟨⟨.localApic, 8⟩, 0, 0, 1⟩] := by
  have hholds : (tableOf [.localApic 0 0 1]).Holds [.localApic 0 0 1] := tableOf_holds (by decide)
  exact ⟨hholds, (madt_decodes_iff hholds).2.mpr (by simp [MadtRecord.Faithful])⟩

end HeliumOS.Acpi
