import HeliumOS.Mem.Virt.VCache
import Mathlib.Algebra.BigOperators.Group.Finset.Piecewise
import Mathlib.Algebra.Order.BigOperators.Group.Finset
import Mathlib.Data.Fintype.Card

/-!
# The Counters of the Virtual Cache

`p2_freecount` and `p2_lazycount` count the windows that are not present and the lazy ones.
While they do, `map` succeeds for as long as a window is free in any table or lazy in the first
one.  These windows are the capacity of the cache.  When all tables are full, the budget that
`map` reclaims with is the lazy count of the first table, so that the lazy windows of the other
tables are out of its reach.
-/

namespace HeliumOS.Mem.Virt

open HeliumOS.Lib HeliumOS.Lib.Radix

namespace VCache

/-- The windows of a table that are not present. -/
def freeSlots (vc : VCache) (i : Fin 4) : Finset (Fin 512) :=
  Finset.univ.filter fun j => (vc.p1 i j).present = false

/-- The lazy windows of a table. -/
def lazySlots (vc : VCache) (i : Fin 4) : Finset (Fin 512) :=
  Finset.univ.filter fun j => vc.state.p1Age i j ≠ 0

instance (vc : VCache) (i : Fin 4) (j : Fin 512) : Decidable (vc.Held i j) :=
  inferInstanceAs (Decidable (_ ∧ _))

/-- The windows of the first table that are not held. -/
def unheld (vc : VCache) : Finset (Fin 512) := Finset.univ.filter fun j => ¬ vc.Held 0 j

@[simp] theorem mem_freeSlots {vc : VCache} {i : Fin 4} {j : Fin 512} :
    j ∈ vc.freeSlots i ↔ (vc.p1 i j).present = false := by simp [freeSlots]

@[simp] theorem mem_lazySlots {vc : VCache} {i : Fin 4} {j : Fin 512} :
    j ∈ vc.lazySlots i ↔ vc.state.p1Age i j ≠ 0 := by simp [lazySlots]

@[simp] theorem mem_unheld {vc : VCache} {j : Fin 512} : j ∈ vc.unheld ↔ ¬ vc.Held 0 j := by
  simp [unheld]

/-- The counters are exact, and lazy windows are present. -/
structure Counted (vc : VCache) : Prop where
  free : ∀ i, vc.state.p2Freecount i = (vc.freeSlots i).card
  lazyCount : ∀ i, vc.state.p2Lazycount i = (vc.lazySlots i).card
  lazyPresent : ∀ i j, vc.state.p1Age i j ≠ 0 → (vc.p1 i j).present = true

variable {vc vc' : VCache} {frame : PhysFrame} {i : Fin 4} {j : Fin 512}

theorem Counted.age_of_free (hc : vc.Counted) (hfree : (vc.p1 i j).present = false) :
    vc.state.p1Age i j = 0 := by
  by_contra hage
  rw [hc.lazyPresent i j hage] at hfree
  cases hfree

theorem Counted.present_of_full (hc : vc.Counted) (hfull : vc.state.p2Freecount i = 0)
    (j : Fin 512) : (vc.p1 i j).present = true := by
  rw [hc.free, Finset.card_eq_zero] at hfull
  have hj : j ∉ vc.freeSlots i := by simp [hfull]
  simpa using hj

/-- Only the present bits matter to the counters. -/
theorem Counted.of_present (hc : vc.Counted) (hstate : vc'.state = vc.state)
    (hp : ∀ i j, (vc'.p1 i j).present = (vc.p1 i j).present) : vc'.Counted := by
  refine ⟨fun i => ?_, fun i => ?_, fun i j hage => ?_⟩
  · rw [hstate, hc.free]
    refine congrArg Finset.card (Finset.ext fun j => ?_)
    rw [mem_freeSlots, mem_freeSlots, hp]
  · rw [hstate, hc.lazyCount, lazySlots, lazySlots, hstate]
  · rw [hp]
    exact hc.lazyPresent i j (hstate ▸ hage)

/-- The number of frames that `map` still has windows for: the windows that are not present, and
the lazy ones of the first table. -/
def capacity (vc : VCache) : ℕ := ∑ i, (vc.freeSlots i).card + (vc.lazySlots 0).card

theorem Counted.capacity_eq (hc : vc.Counted) :
    vc.capacity = ∑ i, vc.state.p2Freecount i + vc.state.p2Lazycount 0 := by
  simp only [capacity, hc.free, hc.lazyCount]

/-! ## Taking a window -/

/-- The state after window `(i, j)`, which was free, was taken for `frame`. -/
structure Takes (vc vc' : VCache) (frame : PhysFrame) (i : Fin 4) (j : Fin 512) : Prop where
  free : (vc.p1 i j).present = false
  p1 : vc'.p1 = vc.p1.set i j (windowEntry frame)
  age : vc'.state.p1Age = vc.state.p1Age
  lazycount : vc'.state.p2Lazycount = vc.state.p2Lazycount
  freecount : vc'.state.p2Freecount =
    Function.update vc.state.p2Freecount i (vc.state.p2Freecount i - 1)

/-- A table with a free count has a free window, and `map` takes it. -/
theorem takeSlot_takes (hc : vc.Counted) (hfree : vc.state.p2Freecount i ≠ 0)
    (p1index : Option (Fin 512)) (hindex : ∀ j, p1index = some j → (vc.p1 i j).present = false)
    (frame : PhysFrame) :
    ∃ j vc', vc.takeSlot i p1index frame = .ok (slotPage i j, vc') ∧ Takes vc vc' frame i j := by
  have hchoose : ∃ j, (vc.p1 i j).present = false ∧
      vc.chooseSlot i p1index = .ok (j, vc.state.p1Age) := by
    cases p1index with
    | some j => exact ⟨j, hindex j rfl, rfl⟩
    | none =>
      -- the counter says that there is a free window, so the search finds one
      cases hfind : (List.finRange 512).find? fun j => !(vc.p1 i j).present with
      | none =>
        exfalso
        apply hfree
        rw [hc.free i, Finset.card_eq_zero, Finset.eq_empty_iff_forall_notMem]
        intro j
        simpa using List.find?_eq_none.mp hfind j (List.mem_finRange j)
      | some j =>
        have hj : (vc.p1 i j).present = false := by simpa using List.find?_some hfind
        refine ⟨j, hj, ?_⟩
        simp only [chooseSlot, hfind, unwrap_some, except_ok_bind]
        rw [← hc.age_of_free hj, Store.set_eq_self]
  obtain ⟨j, hj, hchoose⟩ := hchoose
  have hcount : checkedSub Panic.freecountUnderflow (vc.state.p2Freecount i) 1 =
      .ok (vc.state.p2Freecount i - 1) := checkedSub_eq_ok.mpr ⟨by omega, rfl⟩
  refine ⟨j, ⟨vc.p1.set i j (windowEntry frame), { vc.state with
    p2Freecount := Function.update vc.state.p2Freecount i (vc.state.p2Freecount i - 1) }⟩,
    ?_, hj, rfl, rfl, rfl, rfl⟩
  simp only [takeSlot, hcount, hchoose, except_ok_bind]

namespace Takes

variable (h : Takes vc vc' frame i j)
include h

theorem freeSlots_eq (i' : Fin 4) :
    vc'.freeSlots i' = if i' = i then (vc.freeSlots i).erase j else vc.freeSlots i' := by
  ext k
  rw [mem_freeSlots, h.p1, Store.set_apply]
  by_cases hi : i' = i
  · by_cases hk : k = j <;> simp [hi, hk]
  · simp [hi]

theorem counted (hc : vc.Counted) : vc'.Counted where
  free i' := by
    have hmem : j ∈ vc.freeSlots i := mem_freeSlots.mpr h.free
    rw [h.freecount, h.freeSlots_eq]
    by_cases hi : i' = i
    · subst hi
      rw [Function.update_self, if_pos rfl, Finset.card_erase_of_mem hmem, hc.free]
    · rw [Function.update_of_ne hi, if_neg hi, hc.free]
  lazyCount i' := by rw [h.lazycount, hc.lazyCount, lazySlots, lazySlots, h.age]
  lazyPresent i' j' hage := by
    rw [h.p1, Store.set_apply]
    split_ifs
    · simp
    · exact hc.lazyPresent i' j' (h.age ▸ hage)

/-- The table loses one free window. -/
theorem capacity_eq (hc : vc.Counted) : vc.capacity = vc'.capacity + 1 := by
  have hpos : vc.state.p2Freecount i ≠ 0 := by
    rw [hc.free]
    exact Finset.card_ne_zero_of_mem (mem_freeSlots.mpr h.free)
  rw [hc.capacity_eq, (h.counted hc).capacity_eq, h.freecount, h.lazycount,
    Finset.sum_update_of_mem (Finset.mem_univ i),
    ← Finset.add_sum_erase _ _ (Finset.mem_univ i), Finset.sdiff_singleton_eq_erase]
  omega

theorem held_of_ne {i' : Fin 4} {j' : Fin 512} (hne : ¬ (i' = i ∧ j' = j)) :
    vc'.Held i' j' ↔ vc.Held i' j' := by
  rw [Held, Held, h.p1, h.age, Store.set_apply, if_neg hne]

end Takes

/-! ## Reclaiming -/

end VCache

/-- Without a budget the loop does nothing. -/
theorem reclaim_zero (js : List (Fin 512)) (r : Reclaim) : reclaim 0 js r = r := by
  cases js <;> simp [reclaim]

/-- With a budget for all of them, the loop frees every lazy window of the list. -/
theorem reclaim_all (budget : ℕ) {js : List (Fin 512)} {r : Reclaim} (hjs : js.Nodup)
    (hbudget : r.found + js.countP (fun j => r.age j ≠ 0) ≤ budget) :
    (reclaim budget js r).found = r.found + js.countP (fun j => r.age j ≠ 0) ∧
      (∀ j, (reclaim budget js r).age j = if j ∈ js then 0 else r.age j) ∧
      ∀ j, (reclaim budget js r).entries j =
        if j ∈ js ∧ r.age j ≠ 0 then
          (r.entries j).setFlags ((r.entries j).flags.remove .PRESENT)
        else r.entries j := by
  -- induction on the windows that are left; `found` and the lazy ones among them make up the budget
  induction js generalizing r with
  | nil => simp [reclaim]
  | cons p1i rest ih =>
    obtain ⟨hnot, hrest⟩ := List.nodup_cons.mp hjs
    simp only [reclaim]
    -- a window without an age is passed over; one with an age is freed and counted
    by_cases hage : r.age p1i = 0
    · have hcount : (p1i :: rest).countP (fun j => r.age j ≠ 0) =
          rest.countP (fun j => r.age j ≠ 0) := by simp [hage]
      rw [hcount] at hbudget ⊢
      split_ifs with hdone hne
      · -- the budget is used up, and nothing lazy is left
        have hzero : rest.countP (fun j => r.age j ≠ 0) = 0 := by omega
        have hnone : ∀ j ∈ p1i :: rest, r.age j = 0 := by
          simpa [hage] using List.countP_eq_zero.mp hzero
        refine ⟨by omega, fun j => ?_, fun j => ?_⟩
        · split_ifs with hj
          · exact hnone j hj
          · rfl
        · rw [if_neg fun h => h.2 (hnone j h.1)]
      · exact absurd hage hne
      · obtain ⟨hfound, hages, hentries⟩ := ih hrest hbudget
        refine ⟨hfound, fun j => ?_, fun j => ?_⟩
        · rw [hages]
          by_cases hj : j = p1i
          · subst hj
            simp [hage]
          · simp [hj]
        · rw [hentries]
          by_cases hj : j = p1i
          · subst hj
            simp [hage]
          · simp [hj]
    · have hcount : (p1i :: rest).countP (fun j => r.age j ≠ 0) =
          rest.countP (fun j => r.age j ≠ 0) + 1 := by simp [hage]
      have hsame : rest.countP (fun j => (r.free p1i).age j ≠ 0) =
          rest.countP (fun j => r.age j ≠ 0) := by
        refine List.countP_congr fun j hj => ?_
        rw [Reclaim.free_age_of_ne r (by rintro rfl; exact hnot hj)]
      have hfound : (r.free p1i).found = r.found + 1 := rfl
      rw [hcount] at hbudget ⊢
      rw [if_neg (by omega), if_pos hage]
      obtain ⟨hfound', hages, hentries⟩ := ih (r := r.free p1i) hrest (by omega)
      refine ⟨by omega, fun j => ?_, fun j => ?_⟩
      · rw [hages]
        by_cases hj : j = p1i
        · subst hj
          simp [hnot, Reclaim.free_age_self]
        · simp [hj, Reclaim.free_age_of_ne r hj]
      · rw [hentries]
        by_cases hj : j = p1i
        · subst hj
          simp [hnot, hage, Reclaim.free]
        · simp [hj, Reclaim.free_age_of_ne r hj, Reclaim.free_entries_of_ne r hj]

namespace VCache

variable {vc vc' : VCache} {frame : PhysFrame}

theorem card_lazySlots (vc : VCache) (i : Fin 4) :
    (vc.lazySlots i).card = (List.finRange 512).countP (fun j => vc.state.p1Age i j ≠ 0) := by
  have huniv : (List.finRange 512).toFinset = Finset.univ := by
    ext j
    simp
  rw [lazySlots, ← huniv, (List.nodup_finRange 512).card_eq_countP]

/-- The state after every lazy window of the first table was freed. -/
structure Reclaimed (vc vc' : VCache) : Prop where
  entry : ∀ j, vc'.p1 0 j = if vc.state.p1Age 0 j ≠ 0 then
    (vc.p1 0 j).setFlags ((vc.p1 0 j).flags.remove .PRESENT) else vc.p1 0 j
  entry_of_ne : ∀ i, i ≠ 0 → vc'.p1 i = vc.p1 i
  age : ∀ j, vc'.state.p1Age 0 j = 0
  age_of_ne : ∀ i, i ≠ 0 → vc'.state.p1Age i = vc.state.p1Age i
  freecount : vc'.state.p2Freecount =
    Function.update vc.state.p2Freecount 0 (vc.state.p2Lazycount 0)
  lazycount : vc'.state.p2Lazycount = Function.update vc.state.p2Lazycount 0 0

/-- The first table is reclaimed with its own lazy count, which is enough for all of it. -/
theorem reclaimTable_reclaimed (hc : vc.Counted) :
    Reclaimed vc (vc.reclaimTable (vc.state.p2Lazycount 0) 0).2 := by
  obtain ⟨hfound, hages, hentries⟩ := reclaim_all (vc.state.p2Lazycount 0)
    (r := ⟨0, none, vc.p1 0, vc.state.p1Age 0⟩) (List.nodup_finRange 512)
    (by rw [hc.lazyCount, card_lazySlots, Nat.zero_add])
  constructor
  · intro j
    simpa [reclaimTable] using hentries j
  · intro i hi
    simp [reclaimTable, hi]
  · intro j
    simpa [reclaimTable] using hages j
  · intro i hi
    simp [reclaimTable, hi]
  · simp only [reclaimTable, hfound, Nat.zero_add]
    rw [hc.lazyCount, card_lazySlots]
  · simp only [reclaimTable]

namespace Reclaimed

variable (h : Reclaimed vc vc')
include h

theorem present_eq_false_of_lazy {j : Fin 512} (hage : vc.state.p1Age 0 j ≠ 0) :
    (vc'.p1 0 j).present = false := by
  rw [h.entry, if_pos hage, PageTableEntry.present_setFlags_remove]

theorem counted (hc : vc.Counted) (hfull : vc.state.p2Freecount 0 = 0) : vc'.Counted where
  free i := by
    by_cases hi : i = 0
    · subst hi
      rw [h.freecount, Function.update_self, hc.lazyCount]
      refine congrArg Finset.card (Finset.ext fun j => ?_)
      -- the first table had no free window, so the free ones now are those that were lazy
      have hpresent := hc.present_of_full hfull j
      rw [mem_lazySlots, mem_freeSlots]
      constructor
      · exact fun hage => h.present_eq_false_of_lazy hage
      · intro hfree hage
        rw [h.entry, if_neg (not_not.mpr hage), hpresent] at hfree
        cases hfree
    · rw [h.freecount, Function.update_of_ne hi, hc.free, freeSlots, freeSlots, h.entry_of_ne i hi]
  lazyCount i := by
    by_cases hi : i = 0
    · subst hi
      rw [h.lazycount, Function.update_self, eq_comm, Finset.card_eq_zero,
        Finset.eq_empty_iff_forall_notMem]
      exact fun j hj => mem_lazySlots.mp hj (h.age j)
    · rw [h.lazycount, Function.update_of_ne hi, hc.lazyCount, lazySlots, lazySlots,
        h.age_of_ne i hi]
  lazyPresent i j hage := by
    by_cases hi : i = 0
    · subst hi
      exact absurd (h.age j) hage
    · rw [h.entry_of_ne i hi]
      rw [h.age_of_ne i hi] at hage
      exact hc.lazyPresent i j hage

/-- What was lazy in the first table is free now. -/
theorem capacity_eq (hc : vc.Counted) (hfull : vc.state.p2Freecount 0 = 0) :
    vc'.capacity = vc.capacity := by
  rw [hc.capacity_eq, (h.counted hc hfull).capacity_eq, h.freecount, h.lazycount,
    Finset.sum_update_of_mem (Finset.mem_univ 0),
    ← Finset.add_sum_erase _ _ (Finset.mem_univ 0), Finset.sdiff_singleton_eq_erase, hfull,
    Function.update_self]
  omega

theorem held_iff (i : Fin 4) (j : Fin 512) : vc'.Held i j ↔ vc.Held i j := by
  rw [Held, Held]
  by_cases hi : i = 0
  · subst hi
    by_cases hage : vc.state.p1Age 0 j = 0
    · simp [h.entry, h.age, hage]
    · simp [h.present_eq_false_of_lazy hage, hage]
  · rw [h.entry_of_ne i hi, h.age_of_ne i hi]

end Reclaimed

/-! ## Progress -/

/-- Exactly the window `(i, j)` changes its status. -/
def HeldBut (vc vc' : VCache) (i : Fin 4) (j : Fin 512) : Prop :=
  ∀ i' j', ¬ (i' = i ∧ j' = j) → (vc'.Held i' j' ↔ vc.Held i' j')

/-- `map` succeeds while there is capacity, and takes one window of it. -/
theorem map_of_capacity (hc : vc.Counted) (hcap : 0 < vc.capacity) (frame : PhysFrame) :
    ∃ i j vc', vc.map frame = .ok (some (slotPage i j), vc') ∧ vc'.Counted ∧
      HeldBut vc vc' i j ∧ vc.capacity = vc'.capacity + 1 := by
  unfold map
  -- a table with a free window, or the windows of the first table are reclaimed
  rcases findFree_eq vc.state with ⟨i, hfree, hfind⟩ | ⟨hfull, hfind⟩
  · obtain ⟨j, vc', htake, htakes⟩ := takeSlot_takes hc hfree none (by simp) frame
    exact ⟨i, j, vc', by simp [hfind, htake], htakes.counted hc, fun _ _ => htakes.held_of_ne,
      htakes.capacity_eq hc⟩
  · -- no window is free, so the capacity is in the lazy windows of the first table
    have hcount : vc.state.p2Lazycount 0 ≠ 0 := by
      rw [hc.capacity_eq] at hcap
      simp only [hfull, Finset.sum_const_zero] at hcap
      omega
    have hgroup : (List.finRange 4).find? (fun i => decide (vc.state.p2Lazycount i ≠ 0)) =
        some 0 := by
      rw [show List.finRange 4 = 0 :: [1, 2, 3] by decide, List.find?_cons_of_pos (by simpa)]
    -- the first table has lazy windows, so it is the one that is reclaimed, with its own count
    have hrec := reclaimTable_reclaimed hc
    have hcounted := hrec.counted hc (hfull 0)
    obtain ⟨-, hindex⟩ := reclaimTable_spec vc (vc.state.p2Lazycount 0) 0
    have hfree : (vc.reclaimTable (vc.state.p2Lazycount 0) 0).2.state.p2Freecount 0 ≠ 0 := by
      rw [hrec.freecount, Function.update_self]
      exact hcount
    obtain ⟨j', vc', htake, htakes⟩ := takeSlot_takes hcounted hfree _
      (fun j hj => hrec.present_eq_false_of_lazy fun hage =>
        (hindex j hj).1 ⟨hc.present_of_full (hfull 0) j, hage⟩) frame
    refine ⟨0, j', vc', ?_, htakes.counted hcounted, fun i' k hne => ?_, ?_⟩
    · simp only [hfind, hgroup, unwrap_some, except_ok_bind, htake]
    · rw [htakes.held_of_ne hne, hrec.held_iff]
    · rw [← htakes.capacity_eq hcounted, hrec.capacity_eq hc (hfull 0)]

/-- Without capacity `map` panics.  Lazy windows of the other tables do not help: the budget for
them is the lazy count of the first table, which is zero. -/
theorem map_panics (hc : vc.Counted) (hcap : vc.capacity = 0) (frame : PhysFrame) :
    vc.map frame = .error
      (if ∀ i, vc.state.p2Lazycount i = 0 then .vcacheNoGroup else .freecountUnderflow) := by
  rw [hc.capacity_eq, Nat.add_eq_zero_iff, Finset.sum_eq_zero_iff] at hcap
  obtain ⟨hfree, hlazy⟩ := hcap
  unfold map
  rcases findFree_eq vc.state with ⟨i, hne, -⟩ | ⟨hfull, hfind⟩
  · exact absurd (hfree i (Finset.mem_univ i)) hne
  simp only [hfind, hlazy]
  split_ifs with hnone
  · rw [List.find?_eq_none.mpr fun i _ => by simp [hnone i]]
    rfl
  · obtain ⟨i, hi⟩ := not_forall.mp hnone
    obtain ⟨p2i, hsome⟩ : ∃ p2i, (List.finRange 4).find?
        (fun p2i => decide (vc.state.p2Lazycount p2i ≠ 0)) = some p2i :=
      Option.isSome_iff_exists.mp
        (List.find?_isSome.mpr ⟨i, List.mem_finRange i, by simpa using hi⟩)
    rw [hsome]
    -- the loop stops before its first window
    have hzero : (vc.reclaimTable 0 p2i).2.state.p2Freecount p2i = 0 := by
      simp [reclaimTable, reclaim_zero]
    simp only [unwrap_some, except_ok_bind, takeSlot, hzero]
    rfl

/-- A window of the first table that is not held is free or lazy. -/
theorem capacity_pos_of_unheld (hroom : vc.unheld.Nonempty) :
    0 < vc.capacity := by
  obtain ⟨j, hj⟩ := hroom
  rw [mem_unheld, Held, not_and_or] at hj
  rcases hj with hfree | hage
  · have hmem : j ∈ vc.freeSlots 0 := by simpa using hfree
    have hle := Finset.single_le_sum (f := fun i => (vc.freeSlots i).card)
      (fun _ _ => Nat.zero_le _)
      (Finset.mem_univ 0)
    have := Finset.card_pos.mpr ⟨j, hmem⟩
    simp only [capacity]
    omega
  · have := Finset.card_pos.mpr ⟨j, mem_lazySlots.mpr hage⟩
    simp only [capacity]
    omega

/-- `map` succeeds while the first table has a window that is not held. -/
theorem map_progress (hc : vc.Counted) (hroom : vc.unheld.Nonempty) (frame : PhysFrame) :
    ∃ i j vc', vc.map frame = .ok (some (slotPage i j), vc') ∧ vc'.Counted ∧
      HeldBut vc vc' i j := by
  obtain ⟨i, j, vc', hmap, hcounted, hbut, -⟩ :=
    map_of_capacity hc (capacity_pos_of_unheld hroom) frame
  exact ⟨i, j, vc', hmap, hcounted, hbut⟩

/-- Giving up a held window: it becomes lazy, and the count of its table goes up. -/
theorem unmap_progress (hc : vc.Counted) {i : Fin 4} {j : Fin 512} (hheld : vc.Held i j) :
    ∃ vc', vc.unmap (slotPage i j) = .ok vc' ∧ vc'.Counted ∧ HeldBut vc vc' i j ∧
      ¬ vc'.Held i j := by
  -- the counter has 16 bits and counts 512 windows at most
  have hbound : vc.state.p2Lazycount i + 1 < 2 ^ 16 := by
    rw [hc.lazyCount]
    have := Finset.card_le_univ (vc.lazySlots i)
    rw [Fintype.card_fin] at this
    omega
  have hcount : checkedAdd 16 Panic.lazycountOverflow (vc.state.p2Lazycount i) 1 =
      .ok (vc.state.p2Lazycount i + 1) := checkedAdd_eq_ok.mpr ⟨hbound, rfl⟩
  obtain ⟨vc', hunmap⟩ : ∃ vc', vc.unmap (slotPage i j) = .ok vc' := by
    simp [unmap, hcount]
  obtain ⟨hp1, hage, hfree, hlazy⟩ := unmap_spec hunmap
  -- free count, lazy count, lazy windows are present; then which windows are held
  refine ⟨vc', hunmap, ⟨fun i' => ?_, fun i' => ?_, fun i' j' hne => ?_⟩, fun i' j' hne => ?_, ?_⟩
  · rw [hfree, hc.free, freeSlots, freeSlots, hp1]
  · by_cases hi : i' = i
    · subst hi
      -- the window becomes lazy, and remains present
      have hinsert : vc'.lazySlots i' = insert j (vc.lazySlots i') := by
        ext k
        rw [mem_lazySlots, hage, Store.set_apply, Finset.mem_insert, mem_lazySlots]
        by_cases hk : k = j <;> simp [hk]
      have hnot : j ∉ vc.lazySlots i' := by simp [hheld.2]
      rw [hlazy, Function.update_self, hinsert, Finset.card_insert_of_notMem hnot, hc.lazyCount]
    · have hsame : vc'.lazySlots i' = vc.lazySlots i' := by
        ext k
        rw [mem_lazySlots, mem_lazySlots, hage, Store.set_apply, if_neg fun h => hi h.1]
      rw [hlazy, Function.update_of_ne hi, hsame, hc.lazyCount]
  · rw [hp1]
    by_cases heq : i' = i ∧ j' = j
    · rw [heq.1, heq.2]
      exact hheld.1
    · rw [hage, Store.set_apply, if_neg heq] at hne
      exact hc.lazyPresent i' j' hne
  · rw [Held, Held, hp1, hage, Store.set_apply, if_neg hne]
  · intro h
    have hzero := h.2
    rw [hage, Store.set_self] at hzero
    cases hzero

end VCache

end HeliumOS.Mem.Virt
