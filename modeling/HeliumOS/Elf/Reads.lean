import HeliumOS.Elf
import HeliumOS.Lib.Reading
import Mathlib.Logic.Relation

/-!
# What the ELF Parser Reads

`parse` casts the start of a byte slice to a file header, and the iterator casts what is at
`phoff + index * phent_size` to a program header.  The length of the slice is kept, and neither of
the two looks at it.

- `FileHeader.verifyReading` and `ElfFile.nextReading` are the two functions with their reads;
  `run_verify` and `next_eq` are their results.
- `verify_inBounds_iff`: `verify` stops at the first field that is wrong.
- `yieldsAt_iff`: the headers that the iterator yields.
- `elf_reads_iff`: what is read and yielded is inside the slice, exactly when those fields and
  headers are.
- `elf_reads_escape` are two files that `parse` accepts: one that ends inside its file header, and
  one whose program header is behind its end.
-/

namespace HeliumOS

open HeliumOS.Lib HeliumOS.Mem HeliumOS.Elf

/-! ## Definitions -/

namespace Elf

/-- `Identification::verify`, with its reads. -/
def FileHeader.verifyIdReading : Reading Bool :=
  (· == [0x7f, 0x45, 0x4c, 0x46]) <$> Reading.bytes 0 4 <&&> (· == 2) <$> Reading.number 4 1 <&&>
    (· == 1) <$> Reading.number 5 1 <&&> (· == 1) <$> Reading.number 6 1

/-- `FileHeader::verify`, with its reads. -/
def FileHeader.verifyReading : Reading Bool :=
  FileHeader.verifyIdReading <&&> (· == 1) <$> Reading.number 20 4 <&&>
    isCanonical <$> Reading.number 24 8

/-- `ProgramHeaderIterator::next`, with its reads.  A header is given by its offset. -/
def ElfFile.nextReading (base index : ℕ) : Reading (Except Panic (Option (ℕ × ℕ))) := do
  let phtLen ← Reading.number 56 2
  if phtLen ≤ index then return .ok none
  let phoff ← Reading.number 32 8
  let phentSize ← Reading.number 54 2
  return do
    let table ← checkedAdd 64 Panic.headerOverflow base phoff
    let _ ← checkedAdd 64 Panic.headerOverflow table (index * phentSize)
    .ok (some (phoff + index * phentSize, index + 1))

/-- The end of the first field that `verify` finds wrong, or of the last one that it looks at. -/
def FileHeader.inspected (h : FileHeader) : ℕ :=
  if h.magic ≠ [0x7f, 0x45, 0x4c, 0x46] then 4
  else if h.idClass ≠ 2 then 5
  else if h.endian ≠ 1 then 6
  else if h.idVersion ≠ 1 then 7
  else if h.version ≠ 1 then 24
  else 32

end Elf

namespace File

/-- `parse` accepts the file. -/
def Accepted (content : File) : Prop := (ElfFile.parse content).isSome = true

/-- The result of the iterator at an index. -/
def next (content : File) (index : ℕ) : Except Panic (Option (ℕ × ℕ)) :=
  (ElfFile.nextReading content.base index).run content.mem

/-- The iterator comes to an index. -/
def Reaches (content : File) : ℕ → Prop :=
  Relation.ReflTransGen (fun i i' => ∃ o, content.next i = .ok (some (o, i'))) 0

/-- A byte is read by `parse`, or by the iterator when `parse` accepts the file. -/
def ReadsByte (content : File) (a : ℕ) : Prop :=
  a ∈ FileHeader.verifyReading.reads content.mem ∨
    content.Accepted ∧ ∃ index, content.Reaches index ∧
      a ∈ (ElfFile.nextReading content.base index).reads content.mem

/-- The iterator yields the header at an offset. -/
def YieldsAt (content : File) (o : ℕ) : Prop :=
  content.Accepted ∧ ∃ index index', content.Reaches index ∧ content.next index =
    .ok (some (o, index'))

/-- What is read, the header of an accepted file and its program headers are inside the slice. -/
structure ReadsInside (content : File) : Prop where
  reads : ∀ a, content.ReadsByte a → a < content.size
  header : content.Accepted → 64 ≤ content.size
  headers : ∀ o, content.YieldsAt o → o + 56 ≤ content.size

end File

namespace Elf

/-! ## Results of the two functions -/

section Results

variable {content : File} {i n o : ℕ}

theorem le_eq_leNat (content : File) (adr n : ℕ) :
    content.le adr n = leNat (ByteMemory.slice content.mem adr n) := by
  induction n generalizing adr with
  | zero => rfl
  | succ n ih =>
    rw [File.le, ih, Nat.add_comm n, ByteMemory.slice_add]
    rfl

theorem run_verifyId : FileHeader.verifyIdReading.run content.mem =
    (FileHeader.read content).verifyId := by
  simp only [FileHeader.verifyIdReading, Reading.run_andM, Reading.run_map, Reading.run_bytes,
    Reading.run_number, ← le_eq_leNat, FileHeader.verifyId, Bool.and_assoc]
  rfl

/-- The first of the two functions is that of `parse`. As a program that reads bytes it has the same
result as on a header that was read before, but it says which bytes it looks at. -/
theorem run_verify :
    FileHeader.verifyReading.run content.mem = (FileHeader.read content).verify := by
  simp only [FileHeader.verifyReading, Reading.run_andM, Reading.run_map, Reading.run_number,
    run_verifyId, ← le_eq_leNat, FileHeader.verify, Bool.and_assoc]
  rfl

theorem accepted_iff : content.Accepted ↔ (FileHeader.read content).verify = true := by
  by_cases h : (FileHeader.read content).verify = true
  · exact iff_of_true (by rw [File.Accepted, ElfFile.parse_of_verify h, Option.isSome_some]) h
  · exact iff_of_false (by simp [File.Accepted, ElfFile.parse, h]) h

/-- The second one is that of the iterator. -/
theorem next_eq : content.next i =
    if (FileHeader.read content).phtLen ≤ i then .ok none
    else (fun _ => some ((FileHeader.read content).phoff + i * (FileHeader.read content).phentSize,
      i + 1)) <$>
      ElfFile.progHeader ⟨.read content, content⟩ i := by
  simp only [File.next, ElfFile.nextReading, Reading.run_bind, Reading.run_number, ← le_eq_leNat]
  split_ifs with h h' h'
  · rfl
  · exact absurd h h'
  · exact absurd h' h
  · simp only [Reading.run_bind, Reading.run_number, Reading.run_pure, ← le_eq_leNat,
      ElfFile.progHeader, map_bind]
    rfl

theorem next_eq_some {i' : ℕ} : content.next i = .ok (some (o, i')) ↔
    i < (FileHeader.read content).phtLen ∧
    content.base + (FileHeader.read content).phoff + i * (FileHeader.read content).phentSize <
      2 ^ 64 ∧
    o = (FileHeader.read content).phoff + i * (FileHeader.read content).phentSize ∧ i' = i + 1 := by
  rw [next_eq]
  split_ifs with h
  · exact iff_of_false (by simp) fun h' => absurd h'.1 (Nat.not_lt.mpr h)
  · simp only [ElfFile.progHeader, map_bind, except_bind_eq_ok, checkedAdd_eq_ok]
    constructor
    · rintro ⟨table, ⟨-, htable⟩, _, ⟨hlt, -⟩, heq⟩
      cases heq
      rw [htable] at hlt
      exact ⟨Nat.not_le.mp h, hlt, rfl, rfl⟩
    · rintro ⟨-, hlt, ho, hi'⟩
      subst ho hi'
      exact ⟨_, ⟨by omega, rfl⟩, _, ⟨hlt, rfl⟩, rfl⟩

/-- The iterator comes to an index when the headers in front of it have addresses. -/
theorem reaches_iff : content.Reaches n ↔ ∀ i < n, i < (FileHeader.read content).phtLen ∧
    content.base + (FileHeader.read content).phoff + i * (FileHeader.read content).phentSize <
      2 ^ 64 := by
  constructor
  · intro h
    induction h with
    | refl => exact fun i hi => absurd hi (Nat.not_lt_zero i)
    | @tail j _ _ hstep ih =>
      obtain ⟨o, hnext⟩ := hstep
      obtain ⟨hlen, hadr, -, rfl⟩ := next_eq_some.mp hnext
      intro i hi
      rcases Nat.lt_succ_iff_lt_or_eq.mp hi with hi | rfl
      · exact ih i hi
      · exact ⟨hlen, hadr⟩
  · intro h
    induction n with
    | zero => exact .refl
    | succ n ih =>
      obtain ⟨hlen, hadr⟩ := h n (Nat.lt_succ_self n)
      exact (ih fun i hi => h i (Nat.lt_succ_of_lt hi)).tail
        ⟨_, next_eq_some.mpr ⟨hlen, hadr, rfl, rfl⟩⟩

/-- Addresses grow with the index, so one header with an address is enough. -/
theorem yieldsAt_iff : content.YieldsAt o ↔ content.Accepted ∧
    ∃ i < (FileHeader.read content).phtLen,
    content.base + (FileHeader.read content).phoff + i * (FileHeader.read content).phentSize <
      2 ^ 64 ∧
    o = (FileHeader.read content).phoff + i * (FileHeader.read content).phentSize := by
  refine and_congr_right fun _ => ⟨?_, ?_⟩
  · rintro ⟨i, i', -, hnext⟩
    obtain ⟨hlen, hadr, ho, -⟩ := next_eq_some.mp hnext
    exact ⟨i, hlen, hadr, ho⟩
  · rintro ⟨i, hlen, hadr, ho⟩
    -- the headers in front of `i` have smaller addresses
    refine ⟨i, i + 1, reaches_iff.mpr fun j hj => ⟨hj.trans hlen, ?_⟩,
      next_eq_some.mpr ⟨hlen, hadr, ho, rfl⟩⟩
    have hle := Nat.mul_le_mul_right (FileHeader.read content).phentSize hj.le
    omega

end Results

/-! ## Reads -/

section Reads

variable {content : File} {n : ℕ}

/-- `verify` stops at the first field that is wrong. How far it reads thus depends on the header,
and a short slice can be refused without a read behind its end. -/
theorem verify_inBounds_iff : FileHeader.verifyReading.InBounds content.mem n ↔
    (FileHeader.read content).inspected ≤ n := by
  have hmagic : ByteMemory.slice content.mem 0 4 = (FileHeader.read content).magic := rfl
  have hclass : content.le 4 1 = (FileHeader.read content).idClass := rfl
  have hendian : content.le 5 1 = (FileHeader.read content).endian := rfl
  have hidVersion : content.le 6 1 = (FileHeader.read content).idVersion := rfl
  have hversion : content.le 20 4 = (FileHeader.read content).version := rfl
  simp only [FileHeader.verifyReading, FileHeader.verifyIdReading, Reading.inBounds_andM,
    Reading.inBounds_map, Reading.inBounds_bytes (show 4 ≠ 0 by decide),
    Reading.inBounds_number (show 1 ≠ 0 by decide), Reading.inBounds_number (show 4 ≠ 0 by decide),
    Reading.inBounds_number (show 8 ≠ 0 by decide), Reading.run_andM, Reading.run_map,
    Reading.run_bytes,
    Reading.run_number, ← le_eq_leNat, hmagic, hclass, hendian, hidVersion, hversion, beq_iff_eq,
    Bool.and_eq_true]
  unfold FileHeader.inspected
  -- one case for each field that is wrong
  split_ifs <;> grind

/-- The iterator looks at fields of the file header only. -/
theorem next_inBounds (base i : ℕ) : (ElfFile.nextReading base i).InBounds content.mem 64 := by
  refine Reading.inBounds_bind.mpr ⟨(Reading.inBounds_number (by decide)).mpr (by decide), ?_⟩
  split_ifs
  · exact Reading.inBounds_pure _
  · refine Reading.inBounds_bind.mpr ⟨(Reading.inBounds_number (by decide)).mpr (by decide), ?_⟩
    refine Reading.inBounds_bind.mpr ⟨(Reading.inBounds_number (by decide)).mpr (by decide), ?_⟩
    exact Reading.inBounds_pure _

/-- **What the ELF parser reads.**  It stays inside the slice exactly when the fields that `verify`
comes to are there and, if they are right, the file header and every program header that has an
address. -/
theorem elf_reads_iff (content : File) : content.ReadsInside ↔
    (FileHeader.read content).inspected ≤ content.size ∧
    (content.Accepted → 64 ≤ content.size ∧ ∀ i < (FileHeader.read content).phtLen,
      content.base + (FileHeader.read content).phoff + i * (FileHeader.read content).phentSize <
        2 ^ 64 →
      (FileHeader.read content).phoff + i * (FileHeader.read content).phentSize + 56 ≤
        content.size) := by
  constructor
  · rintro ⟨hreads, hheader, hheaders⟩
    refine ⟨verify_inBounds_iff.mp fun a ha => hreads a (.inl ha), fun haccepted =>
      ⟨hheader haccepted, fun i hi hadr => ?_⟩⟩
    exact hheaders _ (yieldsAt_iff.mpr ⟨haccepted, i, hi, hadr, rfl⟩)
  · rintro ⟨hinspected, hrest⟩
    refine ⟨?_, fun haccepted => (hrest haccepted).1, fun o ho => ?_⟩
    · -- reads of `parse`, and those of the iterator
      rintro a (ha | ⟨haccepted, i, -, ha⟩)
      · exact verify_inBounds_iff.mpr hinspected a ha
      · exact (next_inBounds _ i a ha).trans_le (hrest haccepted).1
    · obtain ⟨haccepted, i, hi, hadr, hoffset⟩ := yieldsAt_iff.mp ho
      rw [hoffset]
      exact (hrest haccepted).2 i hi hadr

end Reads

/-! ## Two files that are too short -/

/-- The bytes of a file header with one program header right behind it, of which the slice has the
first `size`. -/
def headerFile (size : ℕ) : File where
  base := 0x1000
  size := size
  mem k := (
    [0x7f, 0x45, 0x4c, 0x46, 2, 1, 1, 0, 0, 0, 0, 0, 0, 0, 0, 0, 2, 0, 0x3e, 0, 1, 0, 0, 0] ++
    [0, 0x10, 0, 0, 0, 0, 0, 0, 64, 0, 0, 0, 0, 0, 0, 0, 0, 0, 0, 0, 0, 0, 0, 0] ++
    [0, 0, 0, 0, 64, 0, 56, 0, 1, 0, 0, 0, 0, 0, 0, 0] : List (BitVec 8)).getD k 0

theorem headerFile_accepted (size : ℕ) : (headerFile size).Accepted :=
  accepted_iff.mpr (show (FileHeader.read (headerFile 0)).verify = true by decide +kernel)

/-- A slice of 32 bytes is accepted, and its iterator reads byte 56.  A slice of 64 bytes is
accepted, and its iterator yields the 56 bytes behind it. -/
theorem elf_reads_escape :
    ((headerFile 32).Accepted ∧ (headerFile 32).ReadsByte 56 ∧ ¬ (headerFile 32).ReadsInside) ∧
    (headerFile 64).Accepted ∧ (headerFile 64).YieldsAt 64 ∧ ¬ (headerFile 64).ReadsInside := by
  have hread : (headerFile 32).ReadsByte 56 :=
    .inr ⟨headerFile_accepted 32, 0, .refl, by decide +kernel⟩
  have hlen : (FileHeader.read (headerFile 64)).phtLen = 1 := by decide +kernel
  have hoff : (FileHeader.read (headerFile 64)).phoff = 64 := by decide +kernel
  have hyield : (headerFile 64).YieldsAt 64 := by
    refine yieldsAt_iff.mpr ⟨headerFile_accepted 64, 0, by rw [hlen]; decide, ?_, ?_⟩ <;>
      rw [hoff, Nat.zero_mul]
    decide
  refine ⟨⟨headerFile_accepted 32, hread, fun h => ?_⟩, headerFile_accepted 64, hyield, fun h => ?_⟩
  · exact absurd (h.reads 56 hread) (by decide)
  · exact absurd (h.headers 64 hyield) (by decide)

end Elf

end HeliumOS
