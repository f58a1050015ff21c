import HeliumOS.Fs.Initrd

/-!
# Archives

How a tar archive is written, and that `init_map` reads back what was written.

An archive is a list of entries.  Each is a header of 512 bytes and the content, padded to a
multiple of 512; zero blocks close the archive.

## Main results
- `readsAs_of_startsAt`: the functions of `TarHeader` read back a header that was written.
- `initStep_entry`: one turn of the loop reads one entry.
- `initMap_archive`: `init_map` returns the last file or directory of each path.
-/

namespace HeliumOS.Fs

open HeliumOS.Lib HeliumOS.Mem

/-! ## Writing archives -/

/-- The last `k` octal digits of a number. -/
def octalDigits : ℕ → ℕ → List Char
  | 0, _ => []
  | k + 1, n => octalDigits k (n / 8) ++ [Char.ofNat (0x30 + n % 8)]

/-- The field `size`: eleven digits and a NUL. -/
def sizeField (n : ℕ) : List (BitVec 8) := utf8Bytes (.ofList (octalDigits 11 n)) ++ [0]

/-- Bytes, padded with zeros. -/
def padTo (n : ℕ) (bytes : List (BitVec 8)) : List (BitVec 8) :=
  bytes ++ List.replicate (n - bytes.length) 0

/-- An entry of an archive.  The bytes of the other fields of the header, by their offsets, are
arbitrary. -/
structure TarEntry where
  name : String
  ftype : BitVec 8
  content : List (BitVec 8)
  other : ℕ → BitVec 8
  name_pos : 0 < (utf8Bytes name).length
  name_le : (utf8Bytes name).length ≤ 100
  name_nul : 0 ∉ utf8Bytes name
  content_lt : content.length < 8 ^ 11

namespace TarEntry

/-- Bytes of the fields that nothing reads. -/
def others (e : TarEntry) (off n : ℕ) : List (BitVec 8) :=
  (List.range n).map fun k => e.other (off + k)

/-- The header of an entry. -/
def header (e : TarEntry) : List (BitVec 8) :=
  padTo 100 (utf8Bytes e.name) ++ (e.others 100 24 ++ (sizeField e.content.length ++
    (e.others 136 20 ++ ([e.ftype] ++ (e.others 157 100 ++ (utf8Bytes "ustar " ++
      (e.others 263 82 ++ (List.replicate 155 0 ++ e.others 500 12))))))))

/-- An entry as it is written. -/
def bytes (e : TarEntry) : List (BitVec 8) :=
  e.header ++ padTo (alignUp e.content.length 512) e.content

/-- The path of an entry. -/
def path (e : TarEntry) : String := "/" ++ e.name

end TarEntry

/-- An archive as it is written, with a number of zero blocks at its end. -/
def serialise (es : List TarEntry) (zeros : ℕ) : List (BitVec 8) :=
  es.flatMap TarEntry.bytes ++ List.replicate (512 * zeros) 0

/-! ## What an archive means -/

/-- What is found at a path. -/
inductive Node where
  | file (content : List (BitVec 8))
  | directory
  deriving DecidableEq

/-- What an entry stands for, if its type is supported. -/
def TarEntry.node (e : TarEntry) : Option Node :=
  if e.ftype = 0x30 then some (.file e.content)
  else if e.ftype = 0x35 then some .directory
  else none

/-- The paths that end in `/.` or `/..`. -/
def Hidden (path : String) : Prop := (∃ p, path = p ++ "/.") ∨ ∃ p, path = p ++ "/.."

/-- The last file or directory with a given path. -/
def lastEntry (es : List TarEntry) (path : String) : Option TarEntry :=
  (es.filter fun e => e.path = path ∧ e.node.isSome).getLast?

/-- The content of a file, and what an entry of the map stands for. -/
def InitrdEntry.node : InitrdEntry → Node
  | .file f => .file ((List.range f.size).map f.mem)
  | .directory => .directory

/-! ## Memory that holds an archive -/

/-- The given bytes are in memory, from an offset on. -/
def StartsAt (mem : ℕ → BitVec 8) (off : ℕ) (bytes : List (BitVec 8)) : Prop :=
  ∀ i b, bytes[i]? = some b → mem (off + i) = b

section StartsAt

variable {mem : ℕ → BitVec 8} {off : ℕ} {a b : List (BitVec 8)}

theorem StartsAt.left (h : StartsAt mem off (a ++ b)) : StartsAt mem off a := by
  intro i x hx
  apply h
  rw [List.getElem?_append_left (List.getElem?_eq_some_iff.mp hx).1, hx]

/-- The second part starts behind the first. The offset is a variable of its own, so that the fields
of a header get the numbers that the source has. -/
theorem StartsAt.skip (h : StartsAt mem off (a ++ b)) (off' : ℕ) (hoff : off + a.length = off') :
    StartsAt mem off' b := by
  intro i x hx
  rw [← hoff, Nat.add_assoc]
  apply h
  rw [List.getElem?_append_right (Nat.le_add_right _ _), Nat.add_sub_cancel_left, hx]

theorem StartsAt.map_range (h : StartsAt mem off a) :
    (List.range a.length).map (fun k => mem (off + k)) = a := by
  apply List.ext_getElem?
  intro i
  by_cases hi : i < a.length
  · simp [hi, h i a[i] (List.getElem?_eq_getElem hi)]
  · simp [hi]

/-- A field of a header that is in memory. -/
theorem StartsAt.field {h : TarHeader} {n : ℕ} (hs : StartsAt h.mem off (a ++ b))
    (hn : a.length = n) :
    h.field off n = a := by
  subst hn
  exact hs.left.map_range

end StartsAt

/-! ## Reading back the fields -/

section Fields

variable {bytes : List (BitVec 8)}

theorem findIdx_nul (h : 0 ∉ bytes) (m : ℕ) :
    (bytes ++ List.replicate m 0).findIdx (· == 0) = bytes.length := by
  induction bytes with
  | nil => cases m <;> rfl
  | cons b bytes ih =>
    rw [List.mem_cons, not_or] at h
    have hb : (b == 0) = false := beq_eq_false_iff_ne.mpr (Ne.symm h.1)
    rw [List.cons_append, List.findIdx_cons, hb, cond_false, ih h.2, List.length_cons]

/-- Padding ends where the text does, also if there is none. -/
theorem text_padTo (n : ℕ) (h : 0 ∉ bytes) : TarHeader.text (padTo n bytes) = bytes := by
  rw [TarHeader.text, padTo, findIdx_nul h, List.take_left]

theorem length_padTo {n : ℕ} (h : bytes.length ≤ n) : (padTo n bytes).length = n := by
  rw [padTo, List.length_append, List.length_replicate]
  omega

theorem cstr_of_nul (h : 0 ∉ bytes) : cstrFromBytesWithNul (bytes ++ [0]) = some bytes := by
  have hidx := findIdx_nul h 1
  rw [List.replicate_one] at hidx
  rw [cstrFromBytesWithNul, hidx, List.length_append, List.length_singleton, if_pos rfl,
    List.dropLast_concat]

/-- The bytes of a field of octal digits. -/
def octalBytes : ℕ → ℕ → List (BitVec 8)
  | 0, _ => []
  | k + 1, n => octalBytes k (n / 8) ++ [BitVec.ofNat 8 (0x30 + n % 8)]

theorem encode_digit : ∀ d < 8, (String.utf8EncodeChar (Char.ofNat (0x30 + d))).map UInt8.toBitVec =
    [BitVec.ofNat 8 (0x30 + d)] := by
  decide

theorem utf8Bytes_octalDigits (k n : ℕ) :
    utf8Bytes (.ofList (octalDigits k n)) = octalBytes k n := by
  rw [utf8Bytes_ofList]
  induction k generalizing n with
  | zero => rfl
  | succ k ih =>
    rw [octalDigits, octalBytes, List.flatMap_append, ih, List.flatMap_singleton,
      encode_digit _ (Nat.mod_lt n (by decide))]

theorem length_octalBytes (k n : ℕ) : (octalBytes k n).length = k := by
  induction k generalizing n with
  | zero => rfl
  | succ k ih => rw [octalBytes, List.length_append, ih, List.length_singleton]

theorem digit_of_mem_octalBytes {k n : ℕ} {b : BitVec 8} (h : b ∈ octalBytes k n) :
    ∃ d < 8, b = BitVec.ofNat 8 (0x30 + d) := by
  induction k generalizing n with
  | zero => simp [octalBytes] at h
  | succ k ih =>
    rcases List.mem_append.mp h with h | h
    · exact ih h
    · exact ⟨n % 8, Nat.mod_lt n (by decide), List.mem_singleton.mp h⟩

theorem toDigit8_digit : ∀ d < 8, toDigit8 (BitVec.ofNat 8 (0x30 + d)) = some d := by decide

/-- The digits are read back, one after the other. -/
theorem foldlM_octalBytes (k n m : ℕ) :
    (octalBytes k n).foldlM (fun n b => (toDigit8 b).map (8 * n + ·)) m =
      some (8 ^ k * m + n % 8 ^ k) := by
  induction k generalizing n with
  | zero => simp [octalBytes, Nat.mod_one]
  | succ k ih =>
    have hdigit := toDigit8_digit _ (Nat.mod_lt n (show 0 < 8 by decide))
    have hvalue : 8 * (8 ^ k * m + n / 8 % 8 ^ k) + n % 8 = 8 ^ (k + 1) * m + n % 8 ^ (k + 1) := by
      rw [pow_succ', Nat.mod_mul, Nat.mul_add, Nat.mul_assoc]
      omega
    rw [octalBytes, List.foldlM_append, ih]
    simp [hdigit, hvalue]

/-- A size of at most eleven digits is read back. There is no sign to be stripped, and the field is
not empty. -/
theorem fromStrRadix8_octal {n : ℕ} (h : n < 8 ^ 11) :
    fromStrRadix8 (.ofList (octalDigits 11 n)) = some n := by
  have hne : octalBytes 11 n ≠ [] := List.ne_nil_of_length_pos (by rw [length_octalBytes]; decide)
  have hsign : stripSign (octalBytes 11 n) = octalBytes 11 n := by
    rw [stripSign, if_neg]
    intro hhead
    obtain ⟨d, hd, heq⟩ := digit_of_mem_octalBytes (List.mem_of_mem_head? hhead)
    revert d
    decide
  rw [fromStrRadix8, utf8Bytes_octalDigits]
  simp only [hsign, if_neg hne, foldlM_octalBytes, Nat.mul_zero, Nat.zero_add, Nat.mod_eq_of_lt h]

theorem length_sizeField (n : ℕ) : (sizeField n).length = 12 := by
  rw [sizeField, utf8Bytes_octalDigits, List.length_append, length_octalBytes,
    List.length_singleton]

end Fields

/-! ## Reading back the header -/

/-- The functions of `TarHeader` return what was written. -/
structure ReadsAs (h : TarHeader) (e : TarEntry) : Prop where
  check : h.check = true
  name : h.name = .ok e.path
  size : h.size = .ok e.content.length
  ftype : h.mem 156 = e.ftype

theorem length_others (e : TarEntry) (off n : ℕ) : (e.others off n).length = n :=
  by simp [TarEntry.others]

theorem length_signature : (utf8Bytes "ustar ").length = 6 := by decide

theorem length_header (e : TarEntry) : e.header.length = 512 := by
  simp only [TarEntry.header, List.length_append, length_padTo e.name_le, length_others,
    length_sizeField, length_signature, List.length_singleton, List.length_replicate]

/-- A header that is in memory is read back. -/
theorem readsAs_of_startsAt {h : TarHeader} {e : TarEntry} (hs : StartsAt h.mem 0 e.header) :
    ReadsAs h e := by
  -- one field after the other, from the start of the header
  have h100 := hs.skip 100 (by rw [length_padTo e.name_le])
  have h124 := h100.skip 124 (by rw [length_others])
  have h136 := h124.skip 136 (by rw [length_sizeField])
  have h156 := h136.skip 156 (by rw [length_others])
  have h157 := h156.skip 157 rfl
  have h257 := h157.skip 257 (by rw [length_others])
  have h263 := h257.skip 263 (by rw [length_signature])
  have h345 := h263.skip 345 (by rw [length_others])
  have hnul : (0 : BitVec 8) ∉ utf8Bytes (.ofList (octalDigits 11 e.content.length)) := by
    rw [utf8Bytes_octalDigits]
    intro hmem
    obtain ⟨d, hd, heq⟩ := digit_of_mem_octalBytes hmem
    revert d
    decide
  -- signature, name, size and type
  refine ⟨?_, ?_, ?_, ?_⟩
  · rw [TarHeader.check, h257.field length_signature, fromUtf8_utf8Bytes]
    exact beq_self_eq_true _
  · have hpref : TarHeader.text (h.field 345 155) = utf8Bytes "" := by
      rw [h345.field List.length_replicate]
      exact text_padTo 155 List.not_mem_nil
    have hname : TarHeader.text (h.field 0 100) = utf8Bytes e.name := by
      rw [hs.field (length_padTo e.name_le), text_padTo 100 e.name_nul]
    simp only [TarHeader.name, except_bind_eq_ok, unwrap_eq_ok, hpref, hname, fromUtf8_utf8Bytes]
    exact ⟨"", rfl, e.name, rfl, rfl⟩
  · have hsize : cstrFromBytesWithNul (h.field 124 12) =
        some (utf8Bytes (.ofList (octalDigits 11 e.content.length))) := by
      rw [h124.field (length_sizeField _), sizeField, cstr_of_nul hnul]
    simp only [TarHeader.size, except_bind_eq_ok, unwrap_eq_ok]
    exact ⟨_, hsize, _, fromUtf8_utf8Bytes _, fromStrRadix8_octal e.content_lt⟩
  · exact h156 0 e.ftype rfl

/-! ## Reading back an entry -/

/-- The suffix test of the source. -/
theorem endsWith_iff {s suffix : String} : endsWith s suffix = true ↔ ∃ p, s = p ++ suffix := by
  rw [endsWith, List.isSuffixOf_iff_suffix]
  constructor
  · rintro ⟨p, hp⟩
    refine ⟨.ofList p, String.toList_inj.mp ?_⟩
    rw [String.toList_append, String.toList_ofList, hp]
  · rintro ⟨p, rfl⟩
    exact ⟨p.toList, String.toList_append.symm⟩

instance : DecidablePred Hidden := fun path =>
  decidable_of_iff (endsWith path "/." = true ∨ endsWith path "/.." = true)
    (or_congr endsWith_iff endsWith_iff)

/-- What an archive means: each path that is not hidden stands for its last file or directory. -/
def archiveNode (es : List TarEntry) (path : String) : Option Node :=
  if Hidden path then none else (lastEntry es path).bind TarEntry.node

section Entries

variable {e : TarEntry} {es : List TarEntry} {h : TarHeader} {initrd : InitrdMap}

theorem lastEntry_snoc (es : List TarEntry) (e : TarEntry) (path : String) :
    lastEntry (es ++ [e]) path =
      if e.path = path ∧ e.node.isSome then some e else lastEntry es path := by
  unfold lastEntry
  rw [List.filter_append]
  split_ifs with hlast
  · rw [List.filter_singleton, decide_eq_true hlast, cond_true, List.getLast?_concat]
  · rw [List.filter_singleton, decide_eq_false hlast, cond_false, List.append_nil]

/-- One more entry replaces what its path stood for. -/
theorem archiveNode_snoc (es : List TarEntry) (e : TarEntry) (path : String) :
    archiveNode (es ++ [e]) path =
      if e.path = path ∧ e.node.isSome ∧ ¬ Hidden path then e.node else archiveNode es path := by
  unfold archiveNode
  rw [lastEntry_snoc]
  by_cases hhidden : Hidden path
  · simp [hhidden]
  · by_cases hlast : e.path = path ∧ e.node.isSome
    · simp [hhidden, hlast]
    · simp only [hhidden, hlast, if_false, not_false_eq_true, and_true]

/-- The map agrees with an archive. -/
def Agrees (initrd : InitrdMap) (es : List TarEntry) : Prop :=
  ∀ path, (initrd path).map InitrdEntry.node = archiveNode es path

theorem endsWith_or_iff {path : String} :
    (endsWith path "/." || endsWith path "/..") = true ↔ Hidden path := by
  rw [Bool.or_eq_true, endsWith_iff, endsWith_iff]
  rfl

/-- A header of a supported type. -/
theorem insertHeader_of_type {ftype : TarEntryType} {entry : InitrdEntry}
    (htype : h.entryType = some ftype) (hr : ReadsAs h e)
    (hentry : initrdEntry h ftype = .ok entry) :
    insertHeader h initrd =
      if Hidden e.path then .ok initrd else .ok (Function.update initrd e.path (some entry)) := by
  rw [insertHeader, htype]
  dsimp only
  rw [hr.name, hentry]
  change (if (endsWith e.path "/." || endsWith e.path "/..") = true then _ else _) = _
  by_cases hhidden : Hidden e.path
  · rw [if_pos hhidden, if_pos (endsWith_or_iff.mpr hhidden)]
  · rw [if_neg hhidden, if_neg fun hends => hhidden (endsWith_or_iff.mp hends)]
    rfl

/-- What the entry of a header of a supported type stands for. -/
theorem exists_initrdEntry (hr : ReadsAs h e) (hcontent : StartsAt h.mem headerSize e.content) :
    (h.entryType = none ∧ e.node = none) ∨
      ∃ ftype entry, h.entryType = some ftype ∧ initrdEntry h ftype = .ok entry ∧
        e.node = some entry.node := by
  unfold TarHeader.entryType TarEntry.node
  rw [hr.ftype]
  split_ifs with hfile hdir
  · refine .inr
      ⟨.file, .file ⟨h.base + headerSize, e.content.length, fun k => h.mem (headerSize + k)⟩,
        rfl, ?_, ?_⟩
    · rw [initrdEntry, TarHeader.content, hr.size]
      rfl
    · exact congrArg (fun content => some (Node.file content)) hcontent.map_range.symm
  · exact .inr ⟨.directory, .directory, rfl, rfl, rfl⟩
  · exact .inl ⟨rfl, rfl⟩

/-- The map agrees with the archive again when a header has been inserted. -/
theorem insertHeader_spec (hr : ReadsAs h e) (hcontent : StartsAt h.mem headerSize e.content)
    (hagrees : Agrees initrd es) :
    ∃ initrd', insertHeader h initrd = .ok initrd' ∧ Agrees initrd' (es ++ [e]) := by
  rcases exists_initrdEntry hr hcontent with ⟨htype, hnode⟩ | ⟨ftype, entry, htype, hentry, hnode⟩
  · refine ⟨initrd, by rw [insertHeader, htype], fun path => ?_⟩
    rw [hagrees path, archiveNode_snoc, if_neg (by simp [hnode])]
  · refine ⟨_, (insertHeader_of_type htype hr hentry).trans (apply_ite _ _ _ _).symm,
      fun path => ?_⟩
    rw [archiveNode_snoc, ← hagrees path, hnode]
    -- hidden paths are in neither, and all others see the new entry at its path only
    by_cases hhidden : Hidden e.path
    · rw [if_pos hhidden, if_neg]
      rintro ⟨rfl, -, hvisible⟩
      exact hvisible hhidden
    · rw [if_neg hhidden]
      by_cases hpath : e.path = path
      · subst hpath
        rw [Function.update_self, if_pos ⟨rfl, rfl, hhidden⟩]
        rfl
      · rw [Function.update_of_ne (Ne.symm hpath), if_neg fun hand => hpath hand.1]

end Entries

/-! ## Reading back an archive -/

section Archives

variable {rd : Initrd} {o : ℕ} {e : TarEntry} {es done : List TarEntry} {initrd : InitrdMap}

/-- The distance that the loop of `init_map` moves on: the header and the content in whole blocks.
-/
theorem length_bytes (e : TarEntry) :
    e.bytes.length = headerSize + alignUp e.content.length 512 := by
  rw [TarEntry.bytes, List.length_append, length_header, length_padTo (le_alignUp (by decide))]
  rfl

/-- The bytes at a header of the initrd. -/
theorem StartsAt.header {d : ℕ} {bytes : List (BitVec 8)} (h : StartsAt rd.mem (o + d) bytes) :
    StartsAt (rd.header (INITRD_START + o)).mem d bytes := by
  intro i b hb
  have hadr : INITRD_START + o - INITRD_START + (d + i) = o + d + i := by
    rw [Nat.add_sub_cancel_left, Nat.add_assoc]
  exact (congrArg rd.mem hadr).trans (h i b hb)

/-- One turn of the loop reads one entry. The cursor goes from the start of the entry to its end,
which is that of the padded content, and the map agrees with one more entry. -/
theorem initStep_entry {rest : List (BitVec 8)} (hs : StartsAt rd.mem o (e.bytes ++ rest))
    (hsize : o + (e.bytes ++ rest).length = rd.size) (hagrees : Agrees initrd done) :
    ∃ initrd', initStep rd (INITRD_START + o, initrd) =
        .ok (some (INITRD_START + (o + e.bytes.length), initrd')) ∧
      Agrees initrd' (done ++ [e]) := by
  have hheader : StartsAt rd.mem (o + 0) e.header := hs.left.left
  have hcontent : StartsAt rd.mem (o + headerSize) e.content :=
    (hs.left.skip _ (by rw [length_header]; rfl)).left
  have hr : ReadsAs (rd.header (INITRD_START + o)) e := readsAs_of_startsAt hheader.header
  obtain ⟨initrd', hins, hagrees'⟩ := insertHeader_spec hr hcontent.header hagrees
  refine ⟨initrd', ?_, hagrees'⟩
  -- below the areas of the loader no sum overflows
  have hbelow := rd.below
  have hlen := length_bytes e
  rw [List.length_append] at hsize
  unfold headerSize at hlen
  unfold INITRD_START BOOTBOOT_MMIO at hbelow
  -- the header is inside the initrd, so the loop does not break
  simp only [initStep, except_bind_eq_ok, checkedAdd_eq_ok]
  refine ⟨_, ⟨by unfold INITRD_START headerSize; omega, rfl⟩, _,
    ⟨by unfold INITRD_START; omega, rfl⟩, ?_⟩
  rw [if_neg (by unfold headerSize; omega)]
  simp only [except_bind_eq_ok, ensure_eq_ok]
  refine ⟨(), by unfold INITRD_START; omega, ?_⟩
  -- the signature is right: the entry is inserted, and the cursor moves on
  rw [if_pos hr.check]
  simp only [except_bind_eq_ok, checkedAdd_eq_ok, checkedAlignUp_eq_ok]
  refine ⟨_, hr.size, _, ⟨by omega, rfl⟩, _, ⟨by unfold INITRD_START headerSize; omega, rfl⟩,
    initrd', hins, ?_⟩
  rw [length_bytes, Nat.add_assoc, Nat.add_assoc]

/-- A zero block is no header. -/
theorem check_zeros (zeros : ℕ) (hs : StartsAt rd.mem o (List.replicate (512 * (zeros + 1)) 0)) :
    (rd.header (INITRD_START + o)).check = false := by
  -- the field with the signature is inside the zeros
  have hsplit : List.replicate (512 * (zeros + 1)) (0 : BitVec 8) =
      List.replicate 257 0 ++ (List.replicate 6 0 ++ List.replicate (512 * zeros + 249) 0) := by
    rw [List.replicate_append_replicate, List.replicate_append_replicate]
    exact congrArg (List.replicate · 0) (by omega)
  have hfield : (rd.header (INITRD_START + o)).field 257 6 = List.replicate 6 0 := by
    rw [hsplit] at hs
    exact (hs.skip (o + 257) (by rw [List.length_replicate])).header.field List.length_replicate
  unfold TarHeader.check
  rw [hfield]
  split
  · rfl
  · next signature hsig =>
    rw [beq_eq_false_iff_ne]
    rintro rfl
    have hbytes := fromUtf8_eq_some.mp hsig
    revert hbytes
    decide

/-- The loop breaks at the zero blocks, or at the end of the initrd. -/
theorem initStep_zeros {zeros : ℕ} (hs : StartsAt rd.mem o (List.replicate (512 * zeros) 0))
    (hsize : o + 512 * zeros = rd.size) : initStep rd (INITRD_START + o, initrd) = .ok none := by
  have hbelow := rd.below
  unfold INITRD_START BOOTBOOT_MMIO at hbelow
  simp only [initStep, except_bind_eq_ok, checkedAdd_eq_ok]
  refine ⟨_, ⟨by unfold INITRD_START headerSize; omega, rfl⟩, _,
    ⟨by unfold INITRD_START; omega, rfl⟩, ?_⟩
  cases zeros with
  | zero => rw [if_pos (by unfold headerSize; omega)]
  | succ zeros =>
    rw [if_neg (by unfold headerSize; omega)]
    simp only [except_bind_eq_ok, ensure_eq_ok]
    refine ⟨(), by unfold INITRD_START; omega, ?_⟩
    rw [if_neg (by rw [check_zeros _ hs]; decide)]

/-- The loop reads all entries that are left. -/
theorem loop_archive {zeros : ℕ} (hs : StartsAt rd.mem o (serialise es zeros))
    (hsize : o + (serialise es zeros).length = rd.size) (hagrees : Agrees initrd done) :
    ∃ current initrd', loop (initStep rd) rd.remaining (initStep_progresses rd)
        (INITRD_START + o, initrd) = .ok (current, initrd') ∧
      Agrees initrd' (done ++ es) := by
  induction es generalizing o initrd done with
  | nil =>
    have hbreak : initStep rd (INITRD_START + o, initrd) = .ok none :=
      initStep_zeros hs (by simpa [serialise] using hsize)
    exact ⟨_, initrd, loop_of_break hbreak, by rwa [List.append_nil]⟩
  | cons e es ih =>
    rw [serialise, List.flatMap_cons, List.append_assoc] at hs hsize
    -- the first entry, and then the loop from behind its content
    obtain ⟨initrd₁, hstep, hagrees₁⟩ := initStep_entry hs hsize hagrees
    obtain ⟨current, initrd', hloop, hagrees'⟩ := ih (hs.skip _ rfl)
      (by rw [List.length_append] at hsize; rw [serialise]; omega) hagrees₁
    refine ⟨current, initrd', (loop_of_turn hstep).trans hloop, ?_⟩
    rwa [List.append_assoc] at hagrees'

/-- The initrd contains the given bytes and nothing else. -/
structure Initrd.Holds (rd : Initrd) (bytes : List (BitVec 8)) : Prop where
  size : rd.size = bytes.length
  starts : StartsAt rd.mem 0 bytes

/-- What `open_file` returns. -/
theorem openFile_eq_iff {path : String} {content : List (BitVec 8)} :
    (∃ f, openFile (some initrd) path = .ok (some f) ∧ (List.range f.size).map f.mem = content) ↔
      (initrd path).map InitrdEntry.node = some (.file content) := by
  have hopen : openFile (some initrd) path = match initrd path with
      | some (.file f) => .ok (some f)
      | _ => .ok none := by
    rw [openFile, openEntry]
    rcases initrd path with _ | _ | _ <;> rfl
  rw [hopen]
  rcases initrd path with _ | f | _ <;> simp [InitrdEntry.node]

/-- **`init_map` reads back every archive.**  Each path that is not hidden stands for its last entry
that is a file or a directory, and no other path is in the map; `open_file` returns the content of
the files. -/
theorem initMap_archive {zeros : ℕ} (hholds : rd.Holds (serialise es zeros)) :
    ∃ initrd, initMap rd = .ok initrd ∧
      (∀ path, (initrd path).map InitrdEntry.node = archiveNode es path) ∧
      ∀ path content, (∃ f, openFile (some initrd) path = .ok (some f) ∧
          (List.range f.size).map f.mem = content) ↔
        ¬ Hidden path ∧ (lastEntry es path).bind TarEntry.node = some (.file content) := by
  have hstart : Agrees (fun _ => none) [] := fun path => by simp [archiveNode, lastEntry]
  obtain ⟨current, initrd, hloop, hagrees⟩ :=
    loop_archive (o := 0) hholds.starts (by rw [Nat.zero_add, hholds.size]) hstart
  refine ⟨initrd, ?_, hagrees, fun path content => ?_⟩
  · rw [initMap, show (INITRD_START, fun _ => none) = (INITRD_START + 0, fun _ => none)
      from rfl, hloop]
    rfl
  · rw [openFile_eq_iff, hagrees path, archiveNode]
    split_ifs with hhidden
    · simp [hhidden]
    · simp [hhidden]

end Archives

/-- An initrd with given bytes. -/
def Initrd.ofBytes (bytes : List (BitVec 8)) (h : INITRD_START + bytes.length ≤ BOOTBOOT_MMIO) :
    Initrd :=
  ⟨bytes.length, fun i => bytes.getD i 0, h⟩

theorem Initrd.ofBytes_holds {bytes : List (BitVec 8)}
    (h : INITRD_START + bytes.length ≤ BOOTBOOT_MMIO) :
    (Initrd.ofBytes bytes h).Holds bytes where
  size := rfl
  starts i b hb := by simp [Initrd.ofBytes, hb]

/-- A file of one byte. -/
def smallEntry : TarEntry where
  name := "a"
  ftype := 0x30
  content := [7]
  other _ := 0
  name_pos := by decide
  name_le := by decide
  name_nul := by decide
  content_lt := by decide

theorem length_small : INITRD_START + (serialise [smallEntry] 2).length ≤ BOOTBOOT_MMIO := by
  rw [serialise, List.flatMap_singleton, List.length_append, length_bytes, List.length_replicate]
  decide

/-- An archive of one file, which is found again. -/
theorem initMap_small :
    ∃ rd : Initrd, rd.Holds (serialise [smallEntry] 2) ∧ ∃ initrd, initMap rd = .ok initrd ∧
      ∃ f, openFile (some initrd) "/a" = .ok (some f) ∧ (List.range f.size).map f.mem = [7] := by
  have hholds := Initrd.ofBytes_holds length_small
  obtain ⟨initrd, hmap, -, hopen⟩ := initMap_archive hholds
  refine ⟨_, hholds, initrd, hmap, (hopen "/a" [7]).mpr ⟨?_, ?_⟩⟩
  · decide
  · decide

end HeliumOS.Fs
