import HeliumOS.Lib.Radix
import HeliumOS.Mem.Entry
import Mathlib.Data.List.FinRange

/-!
# The Virtual Cache

`mem/virt/vcache.rs`: 2048 page-sized windows at the start of the kernel half, through which the
kernel looks at physical frames.  The windows are the entries of four P1 tables.

A window is **held** when its entry is present and its age is zero.  `unmap` only marks a window
as lazy; `map` takes a window that is not present, or reclaims the lazy windows of one table
when every table is full.

- `map_spec`: a new window was not held before, and held windows keep their entries.
- `remap_slotPage`, `unmap_spec`: the other two operations touch one window only.
-/

namespace HeliumOS.Mem.Virt

open HeliumOS.Lib HeliumOS.Lib.Radix

/-! ## Windows -/

/-- `P1PAGE_COUNT`. -/
def p1PageCount : ℕ := 2048

/-- The windows end inside the upper half. -/
theorem slotPage_canonical (p2i : Fin 4) (p1i : Fin 512) :
    kvmspace.num + (p2i.val * 512 + p1i.val) < 2 ^ 35 ∨
      2 ^ 52 - 2 ^ 35 ≤ kvmspace.num + (p2i.val * 512 + p1i.val) ∧
        kvmspace.num + (p2i.val * 512 + p1i.val) < 2 ^ 52 := by
  simp only [kvmspace]
  omega

/-- The page of window `p1i` of table `p2i`. -/
def slotPage (p2i : Fin 4) (p1i : Fin 512) : Page :=
  ⟨kvmspace.num + (p2i.val * 512 + p1i.val), slotPage_canonical p2i p1i⟩

/-- The page lies in the area from `START_ADDR` on that the cache manages. -/
def InArea (page : Page) : Prop :=
  kvmspace.num ≤ page.num ∧ page.num < kvmspace.num + p1PageCount

instance (page : Page) : Decidable (InArea page) := inferInstanceAs (Decidable (_ ∧ _))

theorem not_inArea_of_isUser {page : Page} (huser : page.IsUser) : ¬ InArea page := fun harea =>
  absurd (page.isUser_iff_lt_kvmspace.mp huser) (Nat.not_lt.mpr harea.1)

/-- `VCache::p2_index` with the bounds check of the table it indexes. -/
def p2Group (page : Page) : Except Panic (Fin 4) :=
  if h : page.p2Index.val - kvmspace.p2Index.val < 4 then .ok ⟨_, h⟩ else .error .vcacheIndex

theorem slotPage_inArea (i : Fin 4) (j : Fin 512) : InArea (slotPage i j) := by
  have := i.isLt
  have := j.isLt
  simp only [InArea, slotPage, p1PageCount]
  omega

/-- Where the tables have the entry of a window: the area starts at the first page of the kernel
half, so the upper indices are fixed, and the lower two name the window. -/
theorem slotPage_indices (i : Fin 4) (j : Fin 512) :
    (slotPage i j).p4Index = 256 ∧ (slotPage i j).p3Index = 0 ∧
      (slotPage i j).p2Index.val = i.val ∧ (slotPage i j).p1Index = j := by
  have := i.isLt
  have := j.isLt
  simp only [slotPage, Page.p4Index, Page.p3Index, Page.p2Index, Page.p1Index, kvmspace,
    Fin.ext_iff]
  refine ⟨?_, ?_, ?_, ?_⟩
  · change _ = 256
    omega
  · change _ = 0
    omega
  · omega
  · omega

@[simp] theorem p2Group_slotPage (i : Fin 4) (j : Fin 512) : p2Group (slotPage i j) = .ok i := by
  have hval := (slotPage_indices i j).2.2.1
  have hzero : kvmspace.p2Index.val = 0 := by decide
  simp only [p2Group, hval, hzero, Nat.sub_zero, i.isLt, dite_true, Fin.eta]

@[simp] theorem slotPage_p1Index (i : Fin 4) (j : Fin 512) : (slotPage i j).p1Index = j :=
  (slotPage_indices i j).2.2.2

theorem slotPage_injective {i i' : Fin 4} {j j' : Fin 512} (h : slotPage i j = slotPage i' j') :
    i = i' ∧ j = j' := by
  have hnum := congrArg Page.num h
  have := j.isLt
  have := j'.isLt
  simp only [slotPage] at hnum
  constructor
  · ext
    omega
  · ext
    omega

/-! ## State -/

/-- `VCacheState`. -/
structure VCacheState where
  p2Freecount : Fin 4 → ℕ
  p2Lazycount : Fin 4 → ℕ
  p1Age : Store (Fin 4) (Fin 512) ℕ

/-- `VCacheState::new`. -/
def VCacheState.new : VCacheState := ⟨fun _ => 512, fun _ => 0, fun _ _ => 0⟩

/-- `VCache`: the four P1 tables and the bookkeeping. -/
structure VCache where
  p1 : Store (Fin 4) (Fin 512) PageTableEntry
  state : VCacheState

/-- The flags of every window. -/
def windowFlags : PageTableFlags := .WRITABLE ||| .GLOBAL ||| .PRESENT

/-- The entry of a window onto a frame. -/
def windowEntry (frame : PhysFrame) : PageTableEntry := .ofFrame frame windowFlags

@[simp] theorem present_windowEntry (frame : PhysFrame) : (windowEntry frame).present = true := by
  rw [windowEntry, PageTableEntry.present_ofFrame]
  decide

@[simp] theorem addr_windowEntry (frame : PhysFrame) : (windowEntry frame).addr = frame :=
  PageTableEntry.addr_ofFrame _ _

/-! ## Mapping a frame -/

/-- The first loop of `map`: the first table with a free window.  The lazy count is taken from
the first table that is visited, and never again. -/
def findFree (s : VCacheState) : List (Fin 4) → Option ℕ → Option (Fin 4) × Option ℕ
  | [], lazyPages => (none, lazyPages)
  | i :: rest, lazyPages =>
    -- set at the first table, and only there
    let lazyPages := lazyPages.or (some (s.p2Lazycount i))
    if s.p2Freecount i ≠ 0 then (some i, lazyPages) else findFree s rest lazyPages

/-- The variables of the loop over the lazy windows of one table. -/
structure Reclaim where
  found : ℕ
  p1index : Option (Fin 512)
  entries : Fin 512 → PageTableEntry
  age : Fin 512 → ℕ

/-- The body of that loop at a lazy window: clear its age and its present bit. -/
def Reclaim.free (r : Reclaim) (p1i : Fin 512) : Reclaim where
  found := r.found + 1
  p1index := some p1i
  entries := Function.update r.entries p1i
    ((r.entries p1i).setFlags ((r.entries p1i).flags.remove .PRESENT))
  age := Function.update r.age p1i 0

/-- The loop that turns lazy windows into free ones, until `budget` of them were found. -/
def reclaim (budget : ℕ) : List (Fin 512) → Reclaim → Reclaim
  | [], r => r
  | p1i :: rest, r =>
    if budget ≤ r.found then r
    else if r.age p1i ≠ 0 then reclaim budget rest (r.free p1i)
    else reclaim budget rest r

namespace VCache

/-- The part of `map` that makes room when no table has a free window. -/
def reclaimTable (vc : VCache) (budget : ℕ) (p2i : Fin 4) : Option (Fin 512) × VCache :=
  let r := reclaim budget (List.finRange 512) ⟨0, none, vc.p1 p2i, vc.state.p1Age p2i⟩
  (r.p1index,
    { p1 := Function.update vc.p1 p2i r.entries
      state :=
        { p2Freecount := Function.update vc.state.p2Freecount p2i r.found
          p2Lazycount := Function.update vc.state.p2Lazycount p2i 0
          p1Age := Function.update vc.state.p1Age p2i r.age } })

/-- The window of table `p2index` to use: the one found while reclaiming, or else the first
that is not present. -/
def chooseSlot (vc : VCache) (p2index : Fin 4) :
    Option (Fin 512) → Except Panic (Fin 512 × Store (Fin 4) (Fin 512) ℕ)
  | some p1i => .ok (p1i, vc.state.p1Age)
  | none => do
    let p1i ← unwrap .vcacheNoSlot
      ((List.finRange 512).find? fun p1i => !(vc.p1 p2index p1i).present)
    .ok (p1i, vc.state.p1Age.set p2index p1i 0)

/-- The second half of `map`: take a window of table `p2index`, which has a free one. -/
def takeSlot (vc : VCache) (p2index : Fin 4) (p1index : Option (Fin 512)) (frame : PhysFrame) :
    Except Panic (Page × VCache) := do
  -- `p2_freecount[p2index] -= 1`
  let count ← checkedSub .freecountUnderflow (vc.state.p2Freecount p2index) 1
  let (p1index, p1Age) ← vc.chooseSlot p2index p1index
  let p1 := vc.p1.set p2index p1index (windowEntry frame)
  let p2Freecount := Function.update vc.state.p2Freecount p2index count
  .ok (slotPage p2index p1index, ⟨p1, { vc.state with p2Freecount, p1Age }⟩)

/-- `VCache::map`.  `none` is its `Err(())`. -/
def map (vc : VCache) (frame : PhysFrame) : Except Panic (Option Page × VCache) :=
  match findFree vc.state (List.finRange 4) none with
  | (some p2index, _) => do
    let (page, vc) ← vc.takeSlot p2index none frame
    .ok (some page, vc)
  | (none, none) => .ok (none, vc)
  | (none, some lazyPages) => do
    -- the table is looked up again, with the budget of the first one
    let p2i ← unwrap .vcacheNoGroup
      ((List.finRange 4).find? fun p2i => vc.state.p2Lazycount p2i ≠ 0)
    let (p1index, vc) := vc.reclaimTable lazyPages p2i
    let (page, vc) ← vc.takeSlot p2i p1index frame
    .ok (some page, vc)

/-- `VCache::remap`.  `none` is its `Err(())`. -/
def remap (vc : VCache) (page : Page) (frame : PhysFrame) : Except Panic (Option VCache) :=
  if ¬ InArea page then .ok none
  else do
    let p2i ← p2Group page
    let entry := vc.p1 p2i page.p1Index
    -- nothing to do if the window shows the frame already
    if !entry.isUnused && entry.frame == some frame then .ok (some vc)
    else .ok (some { vc with p1 := vc.p1.set p2i page.p1Index (windowEntry frame) })

/-- `VCache::unmap`: the window becomes lazy. -/
def unmap (vc : VCache) (page : Page) : Except Panic VCache := do
  let p2i ← p2Group page
  let p1Age := vc.state.p1Age.set p2i page.p1Index 1
  let count ← checkedAdd 16 .lazycountOverflow (vc.state.p2Lazycount p2i) 1
  .ok { vc with
    state := { vc.state with
      p1Age
      p2Lazycount := Function.update vc.state.p2Lazycount p2i count } }

/-- `VCache::unmap_many`. -/
def unmapMany (vc : VCache) : List Page → Except Panic VCache
  | [] => .ok vc
  | page :: pages => do (← vc.unmap page).unmapMany pages

/-- `VCache::map_many`: on an error the windows mapped so far are given up again. -/
def mapMany (vc : VCache) : List PhysFrame → List Page → Except Panic (Option (List Page) × VCache)
  | [], result => .ok (some result, vc)
  | frame :: frames, result => do
    match ← vc.map frame with
    | (some page, vc) => vc.mapMany frames (result ++ [page])
    | (none, vc) => do
      let vc ← vc.unmapMany result
      .ok (none, vc)

end VCache

private theorem findFree_some (s : VCacheState) (is : List (Fin 4)) (lazyPages : ℕ) :
    (∃ i ∈ is, s.p2Freecount i ≠ 0 ∧
        findFree s is (some lazyPages) = (some i, some lazyPages)) ∨
      ((∀ i ∈ is, s.p2Freecount i = 0) ∧
        findFree s is (some lazyPages) = (none, some lazyPages)) := by
  induction is with
  | nil => exact .inr ⟨by simp, rfl⟩
  | cons i rest ih =>
    simp only [findFree, Option.some_or]
    by_cases hi : s.p2Freecount i = 0
    · simp only [hi, ne_eq, not_true_eq_false, if_false]
      rcases ih with ⟨i', hmem, hne, heq⟩ | ⟨hall, heq⟩
      · exact .inl ⟨i', List.mem_cons_of_mem _ hmem, hne, heq⟩
      · exact .inr ⟨by simpa [hi] using hall, heq⟩
    · exact .inl ⟨i, by simp, hi, by simp [hi]⟩

/-- The first loop finds a table with a free window, if there is one.  The lazy count that `map`
works with is that of the first table in any case. -/
theorem findFree_eq (s : VCacheState) :
    (∃ i, s.p2Freecount i ≠ 0 ∧
        findFree s (List.finRange 4) none = (some i, some (s.p2Lazycount 0))) ∨
      ((∀ i, s.p2Freecount i = 0) ∧
        findFree s (List.finRange 4) none = (none, some (s.p2Lazycount 0))) := by
  have hrange : List.finRange 4 = 0 :: [1, 2, 3] := by decide
  have hstart : findFree s (List.finRange 4) none =
      findFree s (List.finRange 4) (some (s.p2Lazycount 0)) := by rw [hrange]; rfl
  rw [hstart]
  rcases findFree_some s (List.finRange 4) (s.p2Lazycount 0) with ⟨i, -, hne, heq⟩ | ⟨hall, heq⟩
  · exact .inl ⟨i, hne, heq⟩
  · exact .inr ⟨fun i => hall i (List.mem_finRange i), heq⟩

/-! ## What the operations do to held windows -/

namespace VCache

/-- The window is in use. -/
def Held (vc : VCache) (i : Fin 4) (j : Fin 512) : Prop :=
  (vc.p1 i j).present = true ∧ vc.state.p1Age i j = 0

/-- Every window that was held, except possibly `(i, j)`, is held with the same entry. -/
def KeepsHeldBut (vc vc' : VCache) (i : Fin 4) (j : Fin 512) : Prop :=
  ∀ i' j', ¬ (i' = i ∧ j' = j) → vc.Held i' j' → vc'.Held i' j' ∧ vc'.p1 i' j' = vc.p1 i' j'

end VCache

namespace Reclaim

variable (r : Reclaim) {p1i j : Fin 512}

theorem free_age_self (p1i : Fin 512) : (r.free p1i).age p1i = 0 := Function.update_self ..

theorem free_age_of_ne (hj : j ≠ p1i) : (r.free p1i).age j = r.age j := Function.update_of_ne hj ..

theorem free_entries_of_ne (hj : j ≠ p1i) : (r.free p1i).entries j = r.entries j :=
  Function.update_of_ne hj ..

end Reclaim

/-- The loop touches lazy windows only, and ends on one of them. -/
theorem reclaim_spec (budget : ℕ) (js : List (Fin 512)) (r : Reclaim) :
    (∀ j, ((reclaim budget js r).entries j = r.entries j ∧ (reclaim budget js r).age j = r.age j) ∨
      (r.age j ≠ 0 ∧ (reclaim budget js r).age j = 0)) ∧
    ((reclaim budget js r).p1index = r.p1index ∨
      ∃ j, (reclaim budget js r).p1index = some j ∧ r.age j ≠ 0 ∧
        (reclaim budget js r).age j = 0) := by
  -- induction on the windows that the loop has not visited yet
  induction js generalizing r with
  | nil => exact ⟨fun j => .inl ⟨rfl, rfl⟩, .inl rfl⟩
  | cons p1i rest ih =>
    simp only [reclaim]
    split_ifs with hbudget hage
    · exact ⟨fun j => .inl ⟨rfl, rfl⟩, .inl rfl⟩
    · obtain ⟨hentries, hindex⟩ := ih (r.free p1i)
      -- the window just reclaimed has age zero, and the rest of the loop leaves it so
      have hself : (reclaim budget rest (r.free p1i)).age p1i = 0 := by
        rcases hentries p1i with ⟨-, hsame⟩ | ⟨hne, -⟩
        · rw [hsame, Reclaim.free_age_self]
        · exact absurd (Reclaim.free_age_self r p1i) hne
      refine ⟨fun j => ?_, ?_⟩
      · by_cases hj : j = p1i
        · exact .inr ⟨hj ▸ hage, hj ▸ hself⟩
        · rw [← Reclaim.free_entries_of_ne r hj, ← Reclaim.free_age_of_ne r hj]
          exact hentries j
      -- the loop ends on this window, or on a later one
      · rcases hindex with hsame | ⟨j, hj, hne, hzero⟩
        · exact .inr ⟨p1i, hsame, hage, hself⟩
        · have hjp : j ≠ p1i := by
            rintro rfl
            exact hne (Reclaim.free_age_self r j)
          exact .inr ⟨j, hj, Reclaim.free_age_of_ne r hjp ▸ hne, hzero⟩
    · exact ih r

namespace VCache

variable {vc vc' : VCache} {frame : PhysFrame} {page : Page} {i : Fin 4} {j : Fin 512}

/-- A window that was found while reclaiming is used as it is; otherwise the age of the first free
one is reset. -/
theorem chooseSlot_eq_ok {p1index : Option (Fin 512)} {p1Age : Store (Fin 4) (Fin 512) ℕ}
    (h : vc.chooseSlot i p1index = .ok (j, p1Age)) :
    (p1index = some j ∧ p1Age = vc.state.p1Age) ∨
      (p1index = none ∧ (vc.p1 i j).present = false ∧ p1Age = vc.state.p1Age.set i j 0) := by
  cases p1index with
  | some p1i =>
    simp only [chooseSlot, Except.ok.injEq, Prod.mk.injEq] at h
    exact .inl ⟨by rw [h.1], h.2.symm⟩
  | none =>
    simp only [chooseSlot, except_bind_eq_ok, unwrap_eq_ok, Except.ok.injEq, Prod.mk.injEq] at h
    obtain ⟨p1i, hfind, rfl, rfl⟩ := h
    exact .inr ⟨rfl, by simpa using List.find?_some hfind, rfl⟩

theorem takeSlot_eq_ok {p1index : Option (Fin 512)}
    (h : vc.takeSlot i p1index frame = .ok (page, vc')) :
    ∃ j p1Age, vc.chooseSlot i p1index = .ok (j, p1Age) ∧ 1 ≤ vc.state.p2Freecount i ∧
      page = slotPage i j ∧ vc'.p1 = vc.p1.set i j (windowEntry frame) ∧
      vc'.state.p1Age = p1Age ∧ vc'.state.p2Lazycount = vc.state.p2Lazycount ∧
      vc'.state.p2Freecount =
        Function.update vc.state.p2Freecount i (vc.state.p2Freecount i - 1) := by
  simp only [takeSlot, except_bind_eq_ok, checkedSub_eq_ok, Prod.exists, Except.ok.injEq,
    Prod.mk.injEq] at h
  obtain ⟨count, ⟨hcount, rfl⟩, j, p1Age, hchoose, rfl, rfl⟩ := h
  exact ⟨j, p1Age, hchoose, hcount, rfl, rfl, rfl, rfl, rfl⟩

/-- What matters after a window was taken. -/
structure Mapped (vc vc' : VCache) (frame : PhysFrame) (i : Fin 4) (j : Fin 512) : Prop where
  fresh : ¬ vc.Held i j
  entry : vc'.p1 i j = windowEntry frame
  age : vc'.state.p1Age i j = 0
  keeps : KeepsHeldBut vc vc' i j

theorem Mapped.held (h : Mapped vc vc' frame i j) : vc'.Held i j :=
  ⟨by rw [h.entry, present_windowEntry], h.age⟩

/-- Taking a window that is not held, when only windows that are not held were changed before. -/
private theorem mapped_of_takeSlot {p1index : Option (Fin 512)} {vc₁ : VCache}
    (hkeep : ∀ i' j', vc.Held i' j' → vc₁.Held i' j' ∧ vc₁.p1 i' j' = vc.p1 i' j')
    (hindex : ∀ j, p1index = some j → ¬ vc.Held i j ∧ vc₁.state.p1Age i j = 0)
    (h : vc₁.takeSlot i p1index frame = .ok (page, vc')) :
    ∃ j, page = slotPage i j ∧ Mapped vc vc' frame i j := by
  -- the window was chosen by the caller, or it is the first one that is not present
  obtain ⟨j, p1Age, hchoose, -, rfl, hp1, hage, -⟩ := takeSlot_eq_ok h
  refine ⟨j, rfl, ?_, by rw [hp1, Store.set_self], ?_, ?_⟩
  · rcases chooseSlot_eq_ok hchoose with ⟨hsome, -⟩ | ⟨-, hfree, -⟩
    · exact (hindex j hsome).1
    · intro hheld
      rw [(hkeep i j hheld).1.1] at hfree
      cases hfree
  · rw [hage]
    rcases chooseSlot_eq_ok hchoose with ⟨hsome, rfl⟩ | ⟨-, -, rfl⟩
    · exact (hindex j hsome).2
    · rw [Store.set_self]
  · intro i' j' hne hheld
    obtain ⟨⟨hpresent, hzero⟩, hentry⟩ := hkeep i' j' hheld
    have hp1' : vc'.p1 i' j' = vc₁.p1 i' j' := by rw [hp1, Store.set_apply, if_neg hne]
    refine ⟨⟨by rw [hp1', hpresent], ?_⟩, hp1'.trans hentry⟩
    rw [hage]
    rcases chooseSlot_eq_ok hchoose with ⟨-, rfl⟩ | ⟨-, -, rfl⟩
    · exact hzero
    · rw [Store.set_apply, if_neg hne, hzero]

/-- Reclaiming leaves held windows alone and ends on one that was lazy. -/
theorem reclaimTable_spec (vc : VCache) (budget : ℕ) (i : Fin 4) :
    (∀ i' j', vc.Held i' j' → (vc.reclaimTable budget i).2.Held i' j' ∧
      (vc.reclaimTable budget i).2.p1 i' j' = vc.p1 i' j') ∧
    ∀ j, (vc.reclaimTable budget i).1 = some j →
      ¬ vc.Held i j ∧ (vc.reclaimTable budget i).2.state.p1Age i j = 0 := by
  obtain ⟨hentries, hindex⟩ :=
    reclaim_spec budget (List.finRange 512) ⟨0, none, vc.p1 i, vc.state.p1Age i⟩
  simp only [reclaimTable]
  constructor
  · intro i' j' hheld
    by_cases hi : i' = i
    · subst hi
      -- an entry is left alone, or it was lazy, which a held window is not
      rcases hentries j' with ⟨hentry, hage⟩ | ⟨hlazy, -⟩
      · simp only [Held, Function.update_self, hentry, hage]
        exact ⟨hheld, trivial⟩
      · exact absurd hheld.2 hlazy
    · simp only [Held, Function.update_of_ne hi]
      exact ⟨hheld, trivial⟩
  · intro j hj
    rcases hindex with hnone | ⟨j', hj', hlazy, hzero⟩
    · rw [hnone] at hj
      cases hj
    · obtain rfl : j' = j := by simpa [hj'] using hj
      exact ⟨fun hheld => hlazy hheld.2, by simpa using hzero⟩

/-- **A new window.**  `map` returns a window that was not held, shows the frame through it, and
leaves every held window as it was. -/
theorem map_spec (h : vc.map frame = .ok (some page, vc')) :
    ∃ i j, page = slotPage i j ∧ Mapped vc vc' frame i j := by
  unfold map at h
  split at h
  · simp only [except_bind_eq_ok, Prod.exists, Except.ok.injEq, Prod.mk.injEq,
      Option.some.injEq] at h
    obtain ⟨page, vc', htake, rfl, rfl⟩ := h
    exact ⟨_, mapped_of_takeSlot (fun _ _ hheld => ⟨hheld, rfl⟩) (by simp) htake⟩
  · cases h
  · simp only [except_bind_eq_ok, Prod.exists, Except.ok.injEq, Prod.mk.injEq,
      Option.some.injEq, unwrap_eq_ok] at h
    obtain ⟨p2i, -, page, vc', htake, rfl, rfl⟩ := h
    obtain ⟨hkeep, hindex⟩ := reclaimTable_spec vc _ p2i
    exact ⟨p2i, mapped_of_takeSlot hkeep hindex htake⟩

/-- `map` does not return `Err`: the lazy count of the first table is always taken. -/
theorem map_ne_none : vc.map frame ≠ .ok (none, vc') := by
  intro h
  unfold map at h
  split at h
  · simp [except_bind_eq_ok] at h
  · next hfind =>
    rcases findFree_eq vc.state with ⟨i, -, heq⟩ | ⟨-, heq⟩ <;> simp [hfind] at heq
  · simp [except_bind_eq_ok] at h

/-- `map_many` for two frames maps both of them. -/
private theorem mapMany_steps {f g : PhysFrame} {r : Option (List Page)}
    (h : vc.mapMany [f, g] [] = .ok (r, vc')) :
    ∃ tmp0 tmp1 vc₁, r = some [tmp0, tmp1] ∧ vc.map f = .ok (some tmp0, vc₁) ∧
      vc₁.map g = .ok (some tmp1, vc') := by
  simp only [mapMany, except_bind_eq_ok, Prod.exists] at h
  obtain ⟨page₀, vc₁, h₀, h⟩ := h
  cases page₀ with
  | none => exact absurd h₀ map_ne_none
  | some page₀ =>
    simp only [except_bind_eq_ok, Prod.exists] at h
    obtain ⟨page₁, vc₂, h₁, h⟩ := h
    cases page₁ with
    | none => exact absurd h₁ map_ne_none
    | some page₁ =>
      simp only [List.nil_append, List.singleton_append, Except.ok.injEq, Prod.mk.injEq] at h
      obtain ⟨rfl, rfl⟩ := h
      exact ⟨page₀, page₁, vc₁, rfl, h₀, h₁⟩

theorem mapMany_pair {f g : PhysFrame} {r : Option (List Page)}
    (h : vc.mapMany [f, g] [] = .ok (r, vc')) : ∃ tmp0 tmp1, r = some [tmp0, tmp1] := by
  obtain ⟨tmp0, tmp1, -, rfl, -, -⟩ := mapMany_steps h
  exact ⟨tmp0, tmp1, rfl⟩

/-- Two windows at once. -/
theorem mapMany_two {f g : PhysFrame} {tmp0 tmp1 : Page}
    (h : vc.mapMany [f, g] [] = .ok (some [tmp0, tmp1], vc')) :
    ∃ vc₁, (∃ i j, tmp0 = slotPage i j ∧ Mapped vc vc₁ f i j) ∧
      ∃ i j, tmp1 = slotPage i j ∧ Mapped vc₁ vc' g i j := by
  obtain ⟨page₀, page₁, vc₁, heq, h₀, h₁⟩ := mapMany_steps h
  simp only [Option.some.injEq, List.cons.injEq, and_true] at heq
  obtain ⟨rfl, rfl⟩ := heq
  exact ⟨vc₁, map_spec h₀, map_spec h₁⟩

/-- The cache with the entry of one window replaced. -/
def setSlot (vc : VCache) (s : Fin 4 × Fin 512) (w : PageTableEntry) : VCache :=
  { vc with p1 := vc.p1.set s.1 s.2 w }

/-- The entry that `remap` leaves: the old one, when it shows the frame already. -/
def remapEntry (entry : PageTableEntry) (frame : PhysFrame) : PageTableEntry :=
  if !entry.isUnused && entry.frame == some frame then entry else windowEntry frame

theorem present_remapEntry (entry : PageTableEntry) (frame : PhysFrame) :
    (remapEntry entry frame).present = true := by
  unfold remapEntry
  split_ifs with hsame
  · simp only [Bool.and_eq_true, beq_iff_eq] at hsame
    exact (PageTableEntry.frame_eq_some hsame.2).1
  · simp

theorem addr_remapEntry (entry : PageTableEntry) (frame : PhysFrame) :
    (remapEntry entry frame).addr = frame := by
  unfold remapEntry
  split_ifs with hsame
  · simp only [Bool.and_eq_true, beq_iff_eq] at hsame
    exact (PageTableEntry.frame_eq_some hsame.2).2
  · simp

/-- Pointing a window at another frame changes the entry of that window only. -/
theorem remap_slotPage (vc : VCache) (i : Fin 4) (j : Fin 512) (frame : PhysFrame) :
    vc.remap (slotPage i j) frame =
      .ok (some (vc.setSlot (i, j) (remapEntry (vc.p1 i j) frame))) := by
  simp only [remap, slotPage_inArea, not_true_eq_false, if_false, p2Group_slotPage,
    except_ok_bind, slotPage_p1Index, remapEntry, setSlot]
  split_ifs <;> simp

/-- `unmap` marks the window as lazy and counts it. The entry stays present until it is reclaimed.
-/
theorem unmap_spec (h : vc.unmap (slotPage i j) = .ok vc') :
    vc'.p1 = vc.p1 ∧ vc'.state.p1Age = vc.state.p1Age.set i j 1 ∧
      vc'.state.p2Freecount = vc.state.p2Freecount ∧
      vc'.state.p2Lazycount =
        Function.update vc.state.p2Lazycount i (vc.state.p2Lazycount i + 1) := by
  simp only [unmap, p2Group_slotPage, except_ok_bind, except_bind_eq_ok, checkedAdd_eq_ok,
    slotPage_p1Index, Except.ok.injEq] at h
  obtain ⟨count, ⟨-, rfl⟩, rfl⟩ := h
  exact ⟨rfl, rfl, rfl, rfl⟩

end VCache

end HeliumOS.Mem.Virt
