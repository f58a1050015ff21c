import HeliumOS.Acpi.Tables
import Mathlib.Logic.Relation

/-!
# The Iterator of the MADT and the End of the Table

`MadtIterator::next` moves its cursor by a byte of the entry, and casts the entry to the structure
of its type.  Neither is compared with the length of the table.

- `Madt.Visits` are the positions that the cursor takes.
- `madt_contained_iff`: the iterator ends, with all of its entries inside the table, exactly when
  every entry that it comes to has a known type and a length, and its structure fits into the table.
- `madt_escapes` are two tables with a valid checksum: one on which the iterator never ends, and one
  with an entry that leaves the table.
-/

namespace HeliumOS.Acpi

open HeliumOS.Lib

/-! ## Entries and their positions -/

/-- `mem::size_of` of the structure that an entry shows. -/
def MadtEntry.byteSize : MadtEntry → ℕ
  | .localApic _ => 8
  | .ioApic _ => 12
  | .ioApicInterruptSourceOverride _ => 10
  | .localApicNmi _ => 4
  | .other _ => 2

/-- The size of the structure that entries of a type are cast to. -/
def MadtType.structSize : MadtType → ℕ
  | .localApic => 8
  | .ioApic => 12
  | .ioApicInterruptSourceOverride => 10
  | .localApicNmi => 4
  | _ => 2

/-- `MadtIterator::next`, with the position of the entry in the table. -/
def MadtIterator.nextAt (it : MadtIterator) :
    Except Panic (Option ((ℕ × MadtEntry) × MadtIterator)) := do
  let item ← it.next
  .ok (item.map fun (entry, it') => ((it.cursor, entry), it'))

/-- The iterator ends, and every entry lies below the end of the table. -/
def Madt.Contained (madt : Madt) : Prop :=
  ∃ items, Yields MadtIterator.nextAt madt.iter items ∧
    ∀ item ∈ items, item.1 + item.2.byteSize ≤ madt.len

namespace Madt

/-- The length byte of the entry at a position. -/
def entryLen (madt : Madt) (a : ℕ) : ℕ := (madt.mem.load 8 (a + 1)).toNat

/-- The cursor moves past an entry. -/
def Advances (madt : Madt) (a a' : ℕ) : Prop := a < madt.len ∧ a' = a + madt.entryLen a

/-- The cursor comes from `a` to `a'`. -/
def Visits (madt : Madt) : ℕ → ℕ → Prop := Relation.ReflTransGen madt.Advances

/-- The entry at `a` is of a known type, takes space, and its structure ends inside the table. -/
structure Fits (madt : Madt) (a : ℕ) : Prop where
  size : ∃ t, MadtType.ofTag (madt.mem.load 8 a) = some t ∧ a + t.structSize ≤ madt.len
  entryLen_ne_zero : madt.entryLen a ≠ 0

end Madt

section Iterator

variable {madt : Madt} {a : ℕ} {items : List (ℕ × MadtEntry)}

theorem MadtEntry.byteSize_cast (m : ByteMemory) (a : ℕ) (header : MadtEntryHeader) :
    (MadtEntry.cast m a header).byteSize = header.mtype.structSize := by
  rcases header with ⟨t, len⟩
  cases t <;> rfl

/-- The iterator at the end of the table, or at an entry of a known type. -/
theorem nextAt_eq_ok {r : Option ((ℕ × MadtEntry) × MadtIterator)} :
    MadtIterator.nextAt ⟨madt, a⟩ = .ok r ↔
      (madt.len ≤ a ∧ r = none) ∨
        (a < madt.len ∧ ∃ t, MadtType.ofTag (madt.mem.load 8 a) = some t ∧
          r = some ((a, .cast madt.mem a ⟨t, madt.mem.load 8 (a + 1)⟩),
            ⟨madt, a + madt.entryLen a⟩)) := by
  rcases Nat.lt_or_ge a madt.len with hlt | hge
  · simp only [MadtIterator.nextAt, MadtIterator.next, MadtEntryHeader.read,
      if_neg (Nat.not_le.mpr hlt), except_bind_eq_ok, unwrap_eq_ok, Except.ok.injEq]
    constructor
    · rintro ⟨_, ⟨_, ⟨t, ht, rfl⟩, rfl⟩, rfl⟩
      exact .inr ⟨hlt, t, ht, rfl⟩
    · rintro (⟨hge, -⟩ | ⟨-, t, ht, rfl⟩)
      · omega
      · exact ⟨_, ⟨_, ⟨t, ht, rfl⟩, rfl⟩, rfl⟩
  · simp only [MadtIterator.nextAt, MadtIterator.next, if_pos hge]
    constructor
    · rintro ⟨⟩
      exact .inl ⟨hge, rfl⟩
    · rintro (⟨-, rfl⟩ | ⟨hlt, -⟩)
      · rfl
      · omega

/-! ## Exactly the tables whose entries fit -/

/-- Behind the end of the table the cursor stays where it is. -/
theorem Madt.Visits.eq_of_le {a' : ℕ} (h : madt.Visits a a') (hge : madt.len ≤ a) : a' = a := by
  rcases h.cases_head with rfl | ⟨b, hstep, -⟩
  · rfl
  · exact absurd hstep.1 (Nat.not_lt.mpr hge)

/-- All entries on the way of an iterator that ends inside the table fit. -/
theorem fits_of_yields (h : Yields MadtIterator.nextAt ⟨madt, a⟩ items)
    (hin : ∀ item ∈ items, item.1 + item.2.byteSize ≤ madt.len) :
    ∀ a', madt.Visits a a' → a' < madt.len → madt.Fits a' := by
  generalize hit : (⟨madt, a⟩ : MadtIterator) = it at h
  induction h generalizing a with
  | done hdone =>
    intro a' hvisits hlt
    subst hit
    rcases nextAt_eq_ok.mp hdone with ⟨hge, -⟩ | ⟨-, t, -, hnone⟩
    · rw [hvisits.eq_of_le hge] at hlt
      omega
    · cases hnone
  | more hmore hrest ih =>
    intro a' hvisits hlt
    subst hit
    rcases nextAt_eq_ok.mp hmore with ⟨-, hnone⟩ | ⟨hstart, t, ht, hsome⟩
    · cases hnone
    cases hsome
    obtain ⟨hfirst, hothers⟩ := List.forall_mem_cons.mp hin
    rw [MadtEntry.byteSize_cast] at hfirst
    rcases hvisits.cases_head with rfl | ⟨b, ⟨-, rfl⟩, hvisits⟩
    · refine ⟨⟨t, ht, hfirst⟩, fun hzero => ?_⟩
      -- an entry without length is yielded again and again
      rw [hzero] at hmore hrest
      exact Yields.not_of_self hmore (.more hmore hrest)
    · exact ih hothers rfl a' hvisits hlt

theorem yields_of_fits (hfits : ∀ a', madt.Visits a a' → a' < madt.len → madt.Fits a') :
    ∃ items, Yields MadtIterator.nextAt ⟨madt, a⟩ items ∧
      ∀ item ∈ items, item.1 + item.2.byteSize ≤ madt.len := by
  -- every entry takes the cursor closer to the end
  induction hn : madt.len - a using Nat.strong_induction_on generalizing a with
  | _ n ih =>
    rcases Nat.lt_or_ge a madt.len with hlt | hge
    · obtain ⟨⟨t, ht, hend⟩, hne⟩ := hfits a .refl hlt
      have hadvances : madt.Advances a (a + madt.entryLen a) := ⟨hlt, rfl⟩
      obtain ⟨items, hyields, hin⟩ := ih (madt.len - (a + madt.entryLen a)) (by omega)
        (fun a' hvisits => hfits a' (.head hadvances hvisits)) rfl
      refine ⟨_, .more (nextAt_eq_ok.mpr (.inr ⟨hlt, t, ht, rfl⟩)) hyields, ?_⟩
      refine List.forall_mem_cons.mpr ⟨?_, hin⟩
      rw [MadtEntry.byteSize_cast]
      exact hend
    · exact ⟨[], .done (nextAt_eq_ok.mpr (.inl ⟨hge, rfl⟩)), by simp⟩

/-- **Which tables contain their entries.** The iterator ends with all entries below the end of the
table exactly when every entry that the cursor comes to fits: its type is known, its length is not
zero, and its structure ends inside the table. The length of the entry itself is compared with
nothing. -/
theorem madt_contained_iff (madt : Madt) :
    madt.Contained ↔ ∀ a, madt.Visits Madt.byteSize a → a < madt.len → madt.Fits a := by
  constructor
  · rintro ⟨items, hyields, hin⟩
    exact fits_of_yields hyields hin
  · exact yields_of_fits

end Iterator

/-! ## Two tables with a valid checksum -/

/-- A table of 46 bytes: the length is that of the header and of two bytes behind it. -/
def shortMadt (checksum type len : BitVec 8) : Madt where
  mem k := ([0x41, 0x50, 0x49, 0x43, 46, 0, 0, 0, 0, checksum] ++ List.replicate 34 0 ++
    [type, len]).getD k 0

/-- The first table has an entry without length, the second one a `LocalApic` entry in its last two
bytes. -/
theorem madt_escapes :
    ((shortMadt 0xb2 3 0).verifyChecksum = true ∧ (shortMadt 0xb2 3 0).len = 46 ∧
      ¬ ∃ items, Yields MadtIterator.nextAt (shortMadt 0xb2 3 0).iter items) ∧
    ((shortMadt 0xad 0 8).verifyChecksum = true ∧ (shortMadt 0xad 0 8).len = 46 ∧
      Yields MadtIterator.nextAt (shortMadt 0xad 0 8).iter
        [(44, .localApic ⟨⟨.localApic, 8⟩, 0, 0, 0⟩)] ∧
      ¬ (shortMadt 0xad 0 8).Contained) := by
  have hlen : (shortMadt 0xb2 3 0).len = 46 := by decide
  have hlen' : (shortMadt 0xad 0 8).len = 46 := by decide
  -- an entry of length zero leads back to itself
  have hself : MadtIterator.nextAt (shortMadt 0xb2 3 0).iter =
      .ok (some ((44, .other ⟨.ioApicNmiSource, 0⟩), (shortMadt 0xb2 3 0).iter)) :=
    nextAt_eq_ok.mpr (.inr ⟨by rw [hlen]; decide, .ioApicNmiSource, by decide, rfl⟩)
  -- an entry of eight bytes begins two bytes before the end
  have hfirst : MadtIterator.nextAt (shortMadt 0xad 0 8).iter =
      .ok (some ((44, .localApic ⟨⟨.localApic, 8⟩, 0, 0, 0⟩), ⟨shortMadt 0xad 0 8, 52⟩)) :=
    nextAt_eq_ok.mpr (.inr ⟨by rw [hlen']; decide, .localApic, by decide, rfl⟩)
  have hyields : Yields MadtIterator.nextAt (shortMadt 0xad 0 8).iter
      [(44, .localApic ⟨⟨.localApic, 8⟩, 0, 0, 0⟩)] :=
    .more hfirst (.done (nextAt_eq_ok.mpr (.inl ⟨by rw [hlen']; decide, rfl⟩)))
  refine ⟨⟨by decide +kernel, hlen, ?_⟩, by decide +kernel, hlen', hyields, ?_⟩
  · rintro ⟨items, hyields⟩
    exact Yields.not_of_self hself hyields
  · rintro ⟨items, hyields', hin⟩
    obtain rfl := hyields'.unique hyields
    have hend := List.forall_mem_singleton.mp hin
    rw [hlen'] at hend
    exact absurd hend (by decide)

end HeliumOS.Acpi
