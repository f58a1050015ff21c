import Mathlib.Data.String.Basic
import Mathlib.Data.Nat.Notation

/-!
# Strings as Bytes

Strings are encoded as UTF-8.  `utf8Bytes` is the encoding as a list of bytes and `fromUtf8` the
checked decoding.

- `fromUtf8_eq_some`: a list of bytes decodes to a string exactly if it is its encoding.
- `utf8Bytes_ofList`: the encoding is that of the characters, one after the other.
-/

namespace HeliumOS.Lib

/-- The bytes of a string. -/
def utf8Bytes (s : String) : List (BitVec 8) := s.toByteArray.data.toList.map UInt8.toBitVec

/-- `from_utf8`. -/
def fromUtf8 (bytes : List (BitVec 8)) : Option String :=
  String.fromUTF8? ⟨(bytes.map UInt8.ofBitVec).toArray⟩

variable {s : String} {bytes : List (BitVec 8)}

theorem toBitVec_comp_ofBitVec : UInt8.toBitVec ∘ UInt8.ofBitVec = id := rfl

theorem ofBitVec_comp_toBitVec : UInt8.ofBitVec ∘ UInt8.toBitVec = id := rfl

/-- A list of bytes decodes to a string exactly if it is its encoding. -/
theorem fromUtf8_eq_some : fromUtf8 bytes = some s ↔ bytes = utf8Bytes s := by
  constructor
  · intro h
    unfold fromUtf8 String.fromUTF8? at h
    split at h
    · cases h
      simp [utf8Bytes, String.fromUTF8, toBitVec_comp_ofBitVec]
    · cases h
  · rintro rfl
    have harray : (⟨((utf8Bytes s).map UInt8.ofBitVec).toArray⟩ : ByteArray) = s.toByteArray := by
      simp [utf8Bytes, ofBitVec_comp_toBitVec]
    simp only [fromUtf8, String.fromUTF8?, harray, dif_pos s.isValidUTF8]
    rfl

@[simp] theorem fromUtf8_utf8Bytes (s : String) : fromUtf8 (utf8Bytes s) = some s :=
  fromUtf8_eq_some.mpr rfl

theorem utf8Bytes_ofList (cs : List Char) :
    utf8Bytes (.ofList cs) = cs.flatMap fun c => (String.utf8EncodeChar c).map UInt8.toBitVec := by
  simp [utf8Bytes, List.utf8Encode, List.map_flatMap]

end HeliumOS.Lib
