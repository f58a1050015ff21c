import HeliumOS.Fs.Archive

/-!
# What `init_map` Reads and Records

`init_map` compares the end of every header with the end of the initrd, but not the end of the
content behind it, whose length is a field of the header.

- `initStep_eq_ok` says what a turn of the loop does, with all its conditions.
- `initMap_same`: headers are read inside the initrd only, for the bytes behind it do not matter.
- `initMap_contained_iff`: on an image whose fields can be parsed, `init_map` returns and records
  slices of the initrd only, exactly when the files that its cursor comes to end inside.
- `truncated_escapes`: a header without its content.
-/

namespace HeliumOS.Fs

open HeliumOS.Lib HeliumOS.Mem

/-! ## Definitions -/

/-- There is a header at this address: its end is inside the initrd, and it has the signature. -/
def Initrd.Heads (rd : Initrd) (a : ℕ) : Prop :=
  a + headerSize ≤ INITRD_START + rd.size ∧ (rd.header a).check = true

/-- The cursor moves from one header to behind its content. -/
def Initrd.Advances (rd : Initrd) (a a' : ℕ) : Prop :=
  rd.Heads a ∧ ∃ n, (rd.header a).size = .ok n ∧ a' = a + headerSize + alignUp n 512

/-- The addresses that the cursor comes to. -/
def Initrd.Visits (rd : Initrd) : ℕ → Prop := Relation.ReflTransGen rd.Advances INITRD_START

/-- No field of a header fails to parse. -/
structure Initrd.Parses (rd : Initrd) : Prop where
  size : ∀ a, rd.Visits a → rd.Heads a → ∃ n, (rd.header a).size = .ok n
  name : ∀ a, rd.Visits a → rd.Heads a → (rd.header a).entryType ≠ none →
    ∃ name, (rd.header a).name = .ok name

/-- A header that `init_map` records as a file. -/
def TarHeader.IsFile (ch : TarHeader) : Prop :=
  ch.entryType = some .file ∧ ∃ name, ch.name = .ok name ∧ ¬ Hidden name

/-- The content of a file ends inside the initrd.  The cursor does not overflow. -/
def Initrd.Fits (rd : Initrd) (a : ℕ) : Prop :=
  ∀ n, (rd.header a).size = .ok n → a + headerSize + alignUp n 512 + headerSize < 2 ^ 64 ∧
    ((rd.header a).IsFile → a + headerSize + n ≤ INITRD_START + rd.size)

/-- Where a file is, and how long. -/
def InitrdEntry.place : InitrdEntry → Option (ℕ × ℕ)
  | .file content => some (content.base, content.size)
  | .directory => none

/-- The same paths with files at the same places. -/
def SamePlaces (initrd initrd' : InitrdMap) : Prop :=
  ∀ path, (initrd' path).map InitrdEntry.place = (initrd path).map InitrdEntry.place

/-- Two images with the same bytes. -/
structure Initrd.Same (rd rd' : Initrd) : Prop where
  size : rd'.size = rd.size
  mem : ∀ k < rd.size, rd'.mem k = rd.mem k

/-- All files of the map are slices of the initrd. -/
def Initrd.Inside (rd : Initrd) (initrd : InitrdMap) : Prop :=
  ∀ path f, initrd path = some (.file f) →
    INITRD_START ≤ f.base ∧ f.base + f.size ≤ INITRD_START + rd.size

/-- `init_map` returns this map, has read headers inside the initrd only, and recorded slices of
it. -/
structure Initrd.Contained (rd : Initrd) (initrd : InitrdMap) : Prop where
  returns : initMap rd = .ok initrd
  headers : ∀ rd', rd.Same rd' → ∃ initrd', initMap rd' = .ok initrd' ∧ SamePlaces initrd initrd'
  slices : rd.Inside initrd

/-! ## One turn -/

section Turns

variable {rd : Initrd} {a : ℕ} {ch : TarHeader} {m m' : InitrdMap}

/-- What a header does to the map. -/
theorem insertHeader_eq_ok : insertHeader ch m = .ok m' ↔
    (ch.entryType = none ∧ m' = m) ∨ ∃ ftype name, ch.entryType = some ftype ∧ ch.name = .ok name ∧
      ((Hidden name ∧ m' = m) ∨ (¬ Hidden name ∧ ∃ entry, initrdEntry ch ftype = .ok entry ∧
        m' = Function.update m name (some entry))) := by
  unfold insertHeader
  cases htype : ch.entryType with
  | none => simp [eq_comm]
  | some ftype =>
    simp only [except_bind_eq_ok, endsWith_or_iff, reduceCtorEq, false_and, false_or,
      Option.some.injEq]
    constructor
    · rintro ⟨name, hname, h⟩
      refine ⟨ftype, name, rfl, hname, ?_⟩
      -- a hidden name is skipped before its content is looked at
      split_ifs at h with hhidden
      · cases h
        exact .inl ⟨hhidden, rfl⟩
      · obtain ⟨entry, hentry, h⟩ := except_bind_eq_ok.mp h
        cases h
        exact .inr ⟨hhidden, entry, hentry, rfl⟩
    · rintro ⟨_, name, rfl, hname, ⟨hhidden, rfl⟩ | ⟨hhidden, entry, hentry, rfl⟩⟩
      · exact ⟨name, hname, if_pos hhidden⟩
      · refine ⟨name, hname, ?_⟩
        rw [if_neg hhidden, hentry]
        rfl

/-- **One turn.**  It breaks behind the last header, or takes the cursor to the next one. -/
theorem initStep_eq_ok {r : Option (ℕ × InitrdMap)} (ha : INITRD_START ≤ a) :
    initStep rd (a, m) = .ok r ↔ a + headerSize < 2 ^ 64 ∧
      ((¬ rd.Heads a ∧ r = none) ∨ (rd.Heads a ∧ ∃ n m', (rd.header a).size = .ok n ∧
        a + headerSize + alignUp n 512 < 2 ^ 64 ∧ insertHeader (rd.header a) m = .ok m' ∧
        r = some (a + headerSize + alignUp n 512, m'))) := by
  have hbelow : INITRD_START + rd.size < 2 ^ 64 := lt_of_le_of_lt rd.below (by decide)
  have hnull : a ≠ 0 := by
    rintro rfl
    exact absurd ha (by decide)
  simp only [initStep, except_bind_eq_ok, checkedAdd_eq_ok, Initrd.Heads]
  constructor
  -- a turn that returns: the tests of the source, in their order
  · rintro ⟨_, ⟨hstop, rfl⟩, _, ⟨-, rfl⟩, h⟩
    refine ⟨hstop, ?_⟩
    by_cases hend : INITRD_START + rd.size < a + headerSize
    · rw [if_pos hend] at h
      cases h
      exact .inl ⟨fun hheads => absurd hheads.1 (Nat.not_le.mpr hend), rfl⟩
    rw [if_neg hend] at h
    obtain ⟨-, -, h⟩ := except_bind_eq_ok.mp h
    split_ifs at h with hcheck
    · simp only [except_bind_eq_ok, checkedAdd_eq_ok, checkedAlignUp_eq_ok] at h
      obtain ⟨n, hn, _, ⟨-, rfl⟩, _, ⟨hnext, rfl⟩, m', hm', h⟩ := h
      cases h
      exact .inr ⟨⟨Nat.le_of_not_lt hend, hcheck⟩, n, m', hn, hnext, hm', rfl⟩
    · cases h
      exact .inl ⟨fun hheads => hcheck hheads.2, rfl⟩
  · rintro ⟨hstop, hcases⟩
    refine ⟨_, ⟨hstop, rfl⟩, _, ⟨hbelow, rfl⟩, ?_⟩
    -- it breaks at the end of the initrd, or at a block without signature
    rcases hcases with ⟨hnot, rfl⟩ | ⟨⟨hend, hcheck⟩, n, m', hn, hnext, hm', rfl⟩
    · by_cases hend : INITRD_START + rd.size < a + headerSize
      · rw [if_pos hend]
      rw [if_neg hend]
      refine except_bind_eq_ok.mpr ⟨(), ensure_eq_ok.mpr hnull, ?_⟩
      rw [if_neg fun hcheck => hnot ⟨Nat.le_of_not_lt hend, hcheck⟩]
    · rw [if_neg (Nat.not_lt.mpr hend)]
      refine except_bind_eq_ok.mpr ⟨(), ensure_eq_ok.mpr hnull, ?_⟩
      rw [if_pos hcheck]
      simp only [except_bind_eq_ok, checkedAdd_eq_ok, checkedAlignUp_eq_ok]
      exact ⟨n, hn, _, ⟨lt_of_le_of_lt (Nat.le_add_left _ _) hnext, rfl⟩, _, ⟨hnext, rfl⟩, m',
        hm', rfl⟩

end Turns

/-! ## Headers are read inside the initrd -/

/-- Two headers with the same bytes at the same address. -/
structure TarHeader.Same (ch ch' : TarHeader) : Prop where
  base : ch'.base = ch.base
  mem : ∀ k < headerSize, ch'.mem k = ch.mem k

section Same

variable {rd rd' : Initrd} {ch ch' : TarHeader} {a : ℕ} {m m' m₁ : InitrdMap}

/-- All fields are inside the header. So whatever the functions of `TarHeader` read is the same in
both. -/
theorem TarHeader.Same.field_eq (h : ch.Same ch') {off n : ℕ} (hn : off + n ≤ headerSize) :
    ch'.field off n = ch.field off n := by
  refine List.map_congr_left fun k hk => h.mem _ ?_
  rw [List.mem_range] at hk
  omega

theorem TarHeader.Same.check_eq (h : ch.Same ch') : ch'.check = ch.check := by
  rw [TarHeader.check, TarHeader.check, h.field_eq (by decide)]

theorem TarHeader.Same.name_eq (h : ch.Same ch') : ch'.name = ch.name := by
  rw [TarHeader.name, TarHeader.name, h.field_eq (by decide), h.field_eq (by decide)]

theorem TarHeader.Same.size_eq (h : ch.Same ch') : ch'.size = ch.size := by
  rw [TarHeader.size, TarHeader.size, h.field_eq (by decide)]

theorem TarHeader.Same.entryType_eq (h : ch.Same ch') : ch'.entryType = ch.entryType := by
  rw [TarHeader.entryType, TarHeader.entryType, h.mem 156 (by decide)]

/-- The two entries are files of the same length at the same address, though their contents may
differ. -/
theorem TarHeader.Same.initrdEntry_place (h : ch.Same ch') {ftype : TarEntryType}
    {entry : InitrdEntry} (hentry : initrdEntry ch ftype = .ok entry) :
    ∃ entry', initrdEntry ch' ftype = .ok entry' ∧ entry'.place = entry.place := by
  cases ftype with
  | directory =>
    cases hentry
    exact ⟨_, rfl, rfl⟩
  | file =>
    simp only [initrdEntry, TarHeader.content, except_bind_eq_ok, h.size_eq] at hentry ⊢
    obtain ⟨content, ⟨n, hn, hcontent⟩, hentry⟩ := hentry
    cases hcontent
    cases hentry
    exact ⟨_, ⟨_, ⟨n, hn, rfl⟩, rfl⟩, by rw [InitrdEntry.place, InitrdEntry.place, h.base]⟩

theorem SamePlaces.update (h : SamePlaces m m') {entry entry' : InitrdEntry}
    (hplace : entry'.place = entry.place) (name : String) :
    SamePlaces (Function.update m name (some entry)) (Function.update m' name (some entry')) := by
  intro path
  by_cases hpath : path = name
  · subst hpath
    rw [Function.update_self, Function.update_self, Option.map_some, Option.map_some, hplace]
  · rw [Function.update_of_ne hpath, Function.update_of_ne hpath, h path]

theorem TarHeader.Same.insertHeader (h : ch.Same ch') (hm : SamePlaces m m')
    (hins : insertHeader ch m = .ok m₁) :
    ∃ m₁', Fs.insertHeader ch' m' = .ok m₁' ∧ SamePlaces m₁ m₁' := by
  simp only [insertHeader_eq_ok, h.entryType_eq, h.name_eq] at hins ⊢
  rcases hins with ⟨htype, rfl⟩
    | ⟨ftype, name, htype, hname, ⟨hhidden, rfl⟩ | ⟨hhidden, entry, hentry, rfl⟩⟩
  · exact ⟨m', .inl ⟨htype, rfl⟩, hm⟩
  · exact ⟨m', .inr ⟨ftype, name, htype, hname, .inl ⟨hhidden, rfl⟩⟩, hm⟩
  · obtain ⟨entry', hentry', hplace⟩ := h.initrdEntry_place hentry
    exact ⟨_, .inr ⟨ftype, name, htype, hname, .inr ⟨hhidden, entry', hentry', rfl⟩⟩,
      hm.update hplace name⟩

/-- A header that ends inside the initrd. -/
theorem Initrd.Same.header (h : rd.Same rd') (ha : INITRD_START ≤ a)
    (hend : a + headerSize ≤ INITRD_START + rd.size) : (rd.header a).Same (rd'.header a) :=
  ⟨rfl, fun k hk => h.mem _ (by omega)⟩

theorem Initrd.Same.heads_iff (h : rd.Same rd') (ha : INITRD_START ≤ a) :
    rd'.Heads a ↔ rd.Heads a := by
  rw [Initrd.Heads, Initrd.Heads, h.size]
  refine and_congr_right fun hend => ?_
  rw [(h.header ha hend).check_eq]

theorem initMap_eq_ok : initMap rd = .ok m ↔ ∃ c,
    Relation.ReflTransGen (Turn (initStep rd)) (INITRD_START, fun _ => none) (c, m) ∧
      initStep rd (c, m) = .ok none := by
  simp only [initMap, except_bind_eq_ok, Prod.exists]
  constructor
  · rintro ⟨c, m', hloop, h⟩
    cases h
    exact ⟨c, loop_eq_ok.mp hloop⟩
  · rintro ⟨c, hturns⟩
    exact ⟨c, m, loop_eq_ok.mpr hturns, rfl⟩

/-- The bytes behind the initrd do not matter. The map has the same paths, with files at the same
places. -/
theorem initMap_same (hsame : rd.Same rd') (h : initMap rd = .ok m) :
    ∃ m', initMap rd' = .ok m' ∧ SamePlaces m m' := by
  obtain ⟨c, hturns⟩ := initMap_eq_ok.mp h
  have hloop : loop (initStep rd) rd.remaining (initStep_progresses rd)
      (INITRD_START, fun _ => none) =
      .ok (c, m) := loop_eq_ok.mpr hturns
  -- the two loops have the cursor in common
  have hsim : ∃ t, loop (initStep rd') rd'.remaining (initStep_progresses rd')
      (INITRD_START, fun _ => none) = .ok t ∧ t.1 = c ∧ INITRD_START ≤ c ∧ SamePlaces m t.2 := by
    refine loop_simulates (R := fun (s t : ℕ × InitrdMap) => t.1 = s.1 ∧ INITRD_START ≤ s.1 ∧
      SamePlaces s.2 t.2) ?_ ?_
      ⟨rfl, le_rfl, fun _ => rfl⟩ hloop
    · rintro ⟨a, m₁⟩ ⟨_, m₁'⟩ ⟨a₂, m₂⟩ ⟨rfl, ha, hm⟩ hturn
      obtain ⟨hstop, ⟨-, hnone⟩ | ⟨hheads, n, m₂, hn, hnext, hins, hsome⟩⟩ :=
        (initStep_eq_ok ha).mp hturn
      · cases hnone
      cases hsome
      have hheader := hsame.header ha hheads.1
      obtain ⟨m₂', hins', hm₂⟩ := hheader.insertHeader hm hins
      refine ⟨(_, m₂'),
        (initStep_eq_ok ha).mpr ⟨hstop, .inr ⟨(hsame.heads_iff ha).mpr hheads, n, m₂',
          hheader.size_eq.trans hn, hnext, hins', rfl⟩⟩, rfl, ?_, hm₂⟩
      exact ha.trans (by rw [Nat.add_assoc]; exact Nat.le_add_right _ _)
    -- both loops break together
    · rintro ⟨a, m₁⟩ ⟨_, m₁'⟩ ⟨rfl, ha, -⟩ hbreak
      obtain ⟨hstop, ⟨hnot, -⟩ | ⟨-, _, _, -, -, -, hsome⟩⟩ := (initStep_eq_ok ha).mp hbreak
      · exact (initStep_eq_ok ha).mpr
          ⟨hstop, .inl ⟨fun hh => hnot ((hsame.heads_iff ha).mp hh), rfl⟩⟩
      · cases hsome
  obtain ⟨⟨c', m'⟩, hloop', -, -, hm'⟩ := hsim
  exact ⟨m', initMap_eq_ok.mpr ⟨c', loop_eq_ok.mp hloop'⟩, hm'⟩

end Same

/-! ## Which slices are recorded -/

section Slices

variable {rd : Initrd} {a c n : ℕ} {m m' : InitrdMap}

theorem Initrd.Visits.le (h : rd.Visits a) : INITRD_START ≤ a := by
  induction h with
  | refl => exact le_rfl
  | tail _ hadv ih =>
    obtain ⟨-, n, -, rfl⟩ := hadv
    omega

/-- A turn is a move of the cursor, and one more header in the map. -/
theorem turn_iff (ha : INITRD_START ≤ a) {s : ℕ × InitrdMap} :
    Turn (initStep rd) (a, m) s ↔ a + headerSize < 2 ^ 64 ∧ rd.Advances a s.1 ∧ s.1 < 2 ^ 64 ∧
      insertHeader (rd.header a) m = .ok s.2 := by
  rw [Turn, initStep_eq_ok ha]
  constructor
  · rintro ⟨hstop, ⟨-, hnone⟩ | ⟨hheads, n, m', hn, hnext, hins, hsome⟩⟩
    · cases hnone
    cases hsome
    exact ⟨hstop, ⟨hheads, n, hn, rfl⟩, hnext, hins⟩
  · obtain ⟨a', m'⟩ := s
    rintro ⟨hstop, ⟨hheads, n, hn, rfl⟩, hnext, hins⟩
    exact ⟨hstop, .inr ⟨hheads, n, m', hn, hnext, hins, rfl⟩⟩

theorem visits_of_turns
    (h : Relation.ReflTransGen (Turn (initStep rd)) (INITRD_START, fun _ => none) (a, m)) :
    rd.Visits a := by
  generalize hs : (a, m) = s at h
  induction h generalizing a m with
  | refl =>
    cases hs
    exact .refl
  | @tail s₁ _ _ hturn ih =>
    subst hs
    have hvisits : rd.Visits s₁.1 := ih rfl
    exact hvisits.tail ((turn_iff hvisits.le).mp hturn).2.1

/-- A file that is recorded. -/
theorem insertHeader_file {ch : TarHeader} {name : String} (htype : ch.entryType = some .file)
    (hname : ch.name = .ok name) (hhidden : ¬ Hidden name) (hn : ch.size = .ok n)
    (hins : insertHeader ch m = .ok m') :
    m' name = some (.file ⟨ch.base + headerSize, n, fun k => ch.mem (headerSize + k)⟩) := by
  rw [insertHeader_eq_ok, htype, hname] at hins
  obtain ⟨h, -⟩ | ⟨_, _, htype', hname', ⟨hh, -⟩ | ⟨-, entry, hentry, rfl⟩⟩ := hins
  · cases h
  · cases hname'
    exact absurd hh hhidden
  · cases htype'
    cases hname'
    rw [initrdEntry, TarHeader.content, hn] at hentry
    cases hentry
    rw [Function.update_self]

/-- A header that fits keeps the slices inside. -/
theorem Initrd.Inside.insertHeader (h : rd.Inside m) (ha : INITRD_START ≤ a)
    (hn : (rd.header a).size = .ok n) (hfits : rd.Fits a)
    (hins : insertHeader (rd.header a) m = .ok m') : rd.Inside m' := by
  intro path f hf
  rcases insertHeader_eq_ok.mp hins with
    ⟨-, rfl⟩ | ⟨ftype, name, htype, hname, ⟨-, rfl⟩ | ⟨hhidden, entry, hentry, rfl⟩⟩
  · exact h path f hf
  · exact h path f hf
  by_cases hpath : path = name
  · subst hpath
    rw [Function.update_self] at hf
    obtain rfl := Option.some.inj hf
    cases ftype with
    | directory => cases hentry
    | file =>
      rw [initrdEntry, TarHeader.content, hn] at hentry
      cases hentry
      exact ⟨ha.trans (Nat.le_add_right _ _), (hfits n hn).2 ⟨htype, path, hname, hhidden⟩⟩
  · rw [Function.update_of_ne hpath] at hf
    exact h path f hf

/-- What can be parsed can be inserted. -/
theorem exists_insertHeader {ch : TarHeader} (hn : ch.size = .ok n)
    (hname : ch.entryType ≠ none → ∃ name, ch.name = .ok name) (m : InitrdMap) :
    ∃ m', insertHeader ch m = .ok m' := by
  simp only [insertHeader_eq_ok]
  cases htype : ch.entryType with
  | none => exact ⟨m, .inl ⟨rfl, rfl⟩⟩
  | some ftype =>
    obtain ⟨name, hname⟩ := hname (by simp [htype])
    by_cases hhidden : Hidden name
    · exact ⟨m, .inr ⟨ftype, name, rfl, hname, .inl ⟨hhidden, rfl⟩⟩⟩
    · obtain ⟨entry, hentry⟩ : ∃ entry, initrdEntry ch ftype = .ok entry := by
        cases ftype with
        | directory => exact ⟨_, rfl⟩
        | file =>
          rw [initrdEntry, TarHeader.content, hn]
          exact ⟨_, rfl⟩
      exact ⟨_, .inr ⟨ftype, name, rfl, hname, .inr ⟨hhidden, entry, hentry, rfl⟩⟩⟩

/-- The loop on an image whose headers fit. -/
theorem inside_of_turns (hfits : ∀ a, rd.Visits a → rd.Heads a → rd.Fits a)
    (h : Relation.ReflTransGen (Turn (initStep rd)) (INITRD_START, fun _ => none) (a, m)) :
    a + headerSize < 2 ^ 64 ∧ rd.Inside m := by
  generalize hs : (a, m) = s at h
  induction h generalizing a m with
  | refl =>
    cases hs
    exact ⟨by decide, fun path f hf => by cases hf⟩
  | @tail s₁ _ hturns hturn ih =>
    subst hs
    have hvisits : rd.Visits s₁.1 := visits_of_turns hturns
    obtain ⟨-, hinside⟩ := ih rfl
    obtain ⟨-, ⟨hheads, n, hn, rfl⟩, -, hins⟩ := (turn_iff hvisits.le).mp hturn
    have hfit := hfits _ hvisits hheads
    exact ⟨(hfit n hn).1, hinside.insertHeader hvisits.le hn hfit hins⟩

/-- If all headers fit, every turn returns. So the loop ends, and the slices that it has recorded
are inside. -/
theorem contained_of_fits (hparses : rd.Parses)
    (hfits : ∀ a, rd.Visits a → rd.Heads a → rd.Fits a) : ∃ initrd, rd.Contained initrd := by
  have hstep : ∀ s, Relation.ReflTransGen (Turn (initStep rd)) (INITRD_START, fun _ => none) s →
      ∃ r, initStep rd s = .ok r := by
    rintro ⟨a, m⟩ hturns
    have hvisits := visits_of_turns hturns
    obtain ⟨hstop, -⟩ := inside_of_turns hfits hturns
    by_cases hheads : rd.Heads a
    · obtain ⟨n, hn⟩ := hparses.size a hvisits hheads
      obtain ⟨m', hm'⟩ := exists_insertHeader hn (hparses.name a hvisits hheads) m
      have hnext := (hfits a hvisits hheads n hn).1
      exact ⟨_, (initStep_eq_ok hvisits.le).mpr
        ⟨hstop, .inr ⟨hheads, n, m', hn, by omega, hm', rfl⟩⟩⟩
    · exact ⟨none, (initStep_eq_ok hvisits.le).mpr ⟨hstop, .inl ⟨hheads, rfl⟩⟩⟩
  have hloop : ∃ s, loop (initStep rd) rd.remaining (initStep_progresses rd)
      (INITRD_START, fun _ => none) = .ok s := exists_loop_eq_ok hstep
  obtain ⟨⟨c, initrd⟩, hloop⟩ := hloop
  have hturns := loop_eq_ok.mp hloop
  have hreturns : initMap rd = .ok initrd := initMap_eq_ok.mpr ⟨c, hturns⟩
  exact ⟨initrd, hreturns, fun rd' hsame => initMap_same hsame hreturns,
    (inside_of_turns hfits hturns.1).2⟩

/-- The loop has been at every address that the cursor comes to. -/
theorem turns_of_visits {s : ℕ × InitrdMap}
    (hloop : loop (initStep rd) rd.remaining (initStep_progresses rd)
      (INITRD_START, fun _ => none) = .ok s) (h : rd.Visits a) :
    ∃ m, Relation.ReflTransGen (Turn (initStep rd)) (INITRD_START, fun _ => none) (a, m) := by
  induction h with
  | refl => exact ⟨_, .refl⟩
  | @tail a₁ a₂ hvisits hadv ih =>
    obtain ⟨m, hturns⟩ := ih
    have hle := Initrd.Visits.le hvisits
    obtain ⟨r, hr⟩ := exists_step_of_loop hloop hturns
    obtain ⟨hstop, ⟨hnot, -⟩ | ⟨-, n, m', hn, hnext, hins, -⟩⟩ := (initStep_eq_ok hle).mp hr
    · exact absurd hadv.1 hnot
    obtain ⟨hheads, n', hn', rfl⟩ := hadv
    obtain rfl : n = n' := Except.ok.inj (hn.symm.trans hn')
    exact ⟨m', hturns.tail ((turn_iff hle).mpr ⟨hstop, ⟨hheads, n, hn, rfl⟩, hnext, hins⟩)⟩

/-- The other direction. A file that ends outside is the last one the loop comes to, since the next
header is behind its content; so it cannot be replaced by a later entry of the same name. -/
theorem fits_of_contained {initrd : InitrdMap} (h : rd.Contained initrd) (hvisits : rd.Visits a)
    (hheads : rd.Heads a) : rd.Fits a := by
  obtain ⟨c, hend⟩ := initMap_eq_ok.mp h.returns
  have hloop : loop (initStep rd) rd.remaining (initStep_progresses rd)
      (INITRD_START, fun _ => none) =
      .ok (c, initrd) := loop_eq_ok.mpr hend
  obtain ⟨m, hturns⟩ := turns_of_visits hloop hvisits
  have hle := hvisits.le
  intro n hn
  -- the turn at this header, and the test behind it
  obtain ⟨r, hr⟩ := exists_step_of_loop hloop hturns
  obtain ⟨hstop, ⟨hnot, -⟩ | ⟨-, n', m', hn', hnext, hins, -⟩⟩ := (initStep_eq_ok hle).mp hr
  · exact absurd hheads hnot
  obtain rfl : n = n' := Except.ok.inj (hn.symm.trans hn')
  have hturn : Turn (initStep rd) (a, m) (a + headerSize + alignUp n 512, m') :=
    (turn_iff hle).mpr ⟨hstop, ⟨hheads, n, hn, rfl⟩, hnext, hins⟩
  have hturns' := hturns.tail hturn
  have hle' : INITRD_START ≤ a + headerSize + alignUp n 512 := by omega
  obtain ⟨r', hr'⟩ := exists_step_of_loop hloop hturns'
  refine ⟨((initStep_eq_ok hle').mp hr').1, ?_⟩
  rintro ⟨htype, name, hname, hhidden⟩
  by_contra hout
  -- behind such a file the loop ends, and the map is returned as it is
  have hbreak : initStep rd (a + headerSize + alignUp n 512, m') = .ok none := by
    refine (initStep_eq_ok hle').mpr
      ⟨((initStep_eq_ok hle').mp hr').1, .inl ⟨fun hh => hout ?_, rfl⟩⟩
    have hpad : n ≤ alignUp n 512 := le_alignUp (by decide)
    have := hh.1
    omega
  have hsame := (loop_of_turns hturns').symm.trans hloop
  rw [loop_of_break hbreak] at hsame
  cases hsame
  exact hout (h.slices name _ (insertHeader_file htype hname hhidden hn hins)).2

/-- **Which images are contained.**  When no field fails to parse, `init_map` returns, reads headers
inside the initrd and records slices of it, exactly when the file of every header on the way of the
cursor ends inside the initrd and the cursor does not overflow. -/
theorem initMap_contained_iff (hparses : rd.Parses) :
    (∃ initrd, rd.Contained initrd) ↔ ∀ a, rd.Visits a → rd.Heads a → rd.Fits a := by
  constructor
  · rintro ⟨initrd, h⟩ a hvisits hheads
    exact fits_of_contained h hvisits hheads
  · exact contained_of_fits hparses

end Slices

/-! ## Two images -/

theorem smallEntry_file {ch : TarHeader} (h : ReadsAs ch smallEntry) :
    ch.entryType = some .file := by
  rw [TarHeader.entryType, h.ftype]
  rfl

/-- The archive with a file of one byte. -/
theorem initMap_contained_small :
    ∃ initrd, (Initrd.ofBytes (serialise [smallEntry] 2) length_small).Contained initrd := by
  generalize hrd : Initrd.ofBytes (serialise [smallEntry] 2) length_small = rd
  have hholds : rd.Holds (serialise [smallEntry] 2) := hrd ▸ Initrd.ofBytes_holds length_small
  have hsize : rd.size = 2048 := by
    rw [hholds.size, serialise, List.flatMap_singleton, List.length_append, length_bytes,
      List.length_replicate]
    rfl
  have hstarts : StartsAt rd.mem 0 (smallEntry.bytes ++ List.replicate (512 * 2) 0) := by
    have h := hholds.starts
    rwa [serialise, List.flatMap_singleton] at h
  have hr : ReadsAs (rd.header INITRD_START) smallEntry :=
    readsAs_of_startsAt (StartsAt.header (o := 0) (d := 0) hstarts.left.left)
  have hzeros : ¬ rd.Heads (INITRD_START + 1024) := fun hh => by
    have hcheck := check_zeros 1 (hstarts.skip 1024 (by rw [length_bytes]; rfl))
    rw [hh.2] at hcheck
    cases hcheck
  -- the cursor comes to the header and to the zeros
  have hvisits : ∀ a, rd.Visits a → a = INITRD_START ∨ a = INITRD_START + 1024 := by
    intro a ha
    induction ha with
    | refl => exact .inl rfl
    | tail _ hadv ih =>
      obtain ⟨hheads, n, hn, rfl⟩ := hadv
      rcases ih with rfl | rfl
      · obtain rfl := Except.ok.inj (hn.symm.trans hr.size)
        exact .inr rfl
      · exact absurd hheads hzeros
  have hhead : ∀ a, rd.Visits a → rd.Heads a → a = INITRD_START := fun a ha hheads =>
    (hvisits a ha).resolve_right fun h => hzeros (h ▸ hheads)
  refine (initMap_contained_iff ⟨fun a ha hheads => ?_, fun a ha hheads _ => ?_⟩).mpr
    fun a ha hheads n hn => ?_
  · rw [hhead a ha hheads]
    exact ⟨_, hr.size⟩
  · rw [hhead a ha hheads]
    exact ⟨_, hr.name⟩
  · rw [hhead a ha hheads] at hn ⊢
    obtain rfl := Except.ok.inj (hn.symm.trans hr.size)
    rw [hsize]
    exact ⟨by decide, fun _ => by decide⟩

theorem length_truncated : INITRD_START + smallEntry.header.length ≤ BOOTBOOT_MMIO := by
  rw [length_header]
  decide

/-- The header of a file of one byte, and nothing behind it.  The byte that is recorded is not part
of the initrd. -/
theorem truncated_escapes :
    (Initrd.ofBytes smallEntry.header length_truncated).size = 512 ∧
      (Initrd.ofBytes smallEntry.header length_truncated).Parses ∧
      (∃ initrd f, initMap (Initrd.ofBytes smallEntry.header length_truncated) = .ok initrd ∧
        initrd "/a" = some (.file f) ∧ f.base = INITRD_START + 512 ∧ f.size = 1) ∧
      ¬ ∃ initrd, (Initrd.ofBytes smallEntry.header length_truncated).Contained initrd := by
  generalize hrd : Initrd.ofBytes smallEntry.header length_truncated = rd
  have hholds : rd.Holds smallEntry.header := hrd ▸ Initrd.ofBytes_holds length_truncated
  have hsize : rd.size = 512 := by rw [hholds.size, length_header]
  have hr : ReadsAs (rd.header INITRD_START) smallEntry :=
    readsAs_of_startsAt (StartsAt.header (o := 0) (d := 0) hholds.starts)
  have hheads : rd.Heads INITRD_START := ⟨by rw [hsize]; rfl, hr.check⟩
  have hhead : ∀ a, rd.Visits a → rd.Heads a → a = INITRD_START := fun a ha hh => by
    have hle := ha.le
    have hend := hh.1
    rw [hsize] at hend
    exact Nat.le_antisymm (Nat.le_of_add_le_add_right hend) hle
  have hend : ¬ rd.Heads (INITRD_START + 1024) := fun hh => by
    have := hh.1
    rw [hsize] at this
    exact absurd this (by decide)
  have hhidden : ¬ Hidden smallEntry.path := by decide +kernel
  obtain ⟨m', hins⟩ := exists_insertHeader hr.size (fun _ => ⟨_, hr.name⟩) fun _ => none
  have hfile := insertHeader_file (smallEntry_file hr) hr.name hhidden hr.size hins
  -- one turn, which takes the cursor past the end
  have hturn : Turn (initStep rd) (INITRD_START, fun _ => none) (INITRD_START + 1024, m') :=
    (turn_iff le_rfl).mpr ⟨by decide, ⟨hheads, _, hr.size, rfl⟩,
      show INITRD_START + 1024 < 2 ^ 64 by decide, hins⟩
  have hmap : initMap rd = .ok m' := initMap_eq_ok.mpr ⟨_, .single hturn,
    (initStep_eq_ok (Nat.le_add_right _ _)).mpr ⟨by decide, .inl ⟨hend, rfl⟩⟩⟩
  refine ⟨hsize, ⟨fun a ha hh => ?_, fun a ha hh _ => ?_⟩, ⟨m', _, hmap, hfile, rfl, rfl⟩, ?_⟩
  · rw [hhead a ha hh]
    exact ⟨_, hr.size⟩
  · rw [hhead a ha hh]
    exact ⟨_, hr.name⟩
  · rintro ⟨initrd, h⟩
    obtain rfl : m' = initrd := Except.ok.inj (hmap.symm.trans h.returns)
    have hinside : INITRD_START + 512 + 1 ≤ INITRD_START + rd.size := (h.slices _ _ hfile).2
    rw [hsize] at hinside
    exact absurd hinside (by decide)

end HeliumOS.Fs
