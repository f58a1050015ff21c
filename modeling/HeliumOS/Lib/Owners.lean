import Mathlib.Data.List.Nodup
import Mathlib.Logic.Function.Basic

/-!
# Items with at Most One Owner

A list of items, some of them in use, and holders that own at most one item each.  `Owners` says
that the items in use are those that somebody owns, and that nobody shares one.  There is one lemma
for each way to change this: an item is added, acquired, released or removed.
-/

namespace HeliumOS.Lib

variable {ι ρ : Type*}

/-- The items in use are owned, each by one holder. -/
structure Owners (items : List ρ) (used : ρ → Prop) (owner : ι → Option ρ) : Prop where
  nodup : items.Nodup
  owned : ∀ i r, owner i = some r → r ∈ items ∧ used r
  unique : ∀ i j r, owner i = some r → owner j = some r → i = j
  owner_of : ∀ r ∈ items, used r → ∃ i, owner i = some r

namespace Owners

variable {items : List ρ} {used used' : ρ → Prop} {owner owner' : ι → Option ρ} {i : ι} {r : ρ}

/-- Only the use of the items in the list counts. -/
theorem congr (h : Owners items used owner) (hused : ∀ r ∈ items, used' r ↔ used r)
    (howner : ∀ i, owner' i = owner i) : Owners items used' owner' where
  nodup := h.nodup
  owned i r hr := by
    rw [howner] at hr
    obtain ⟨hmem, hr⟩ := h.owned i r hr
    exact ⟨hmem, (hused r hmem).mpr hr⟩
  unique i j r hi hj := h.unique i j r (by rwa [← howner]) (by rwa [← howner])
  owner_of r hmem hr := by
    obtain ⟨i, hi⟩ := h.owner_of r hmem ((hused r hmem).mp hr)
    exact ⟨i, by rwa [howner]⟩

/-- A new item that is not in use. -/
theorem add (h : Owners items used owner) (hnew : r ∉ items) (hfree : ¬ used r) :
    Owners (items ++ [r]) used owner where
  nodup := List.nodup_append.mpr ⟨h.nodup, List.nodup_singleton r, fun x hx y hy hxy =>
    hnew (List.mem_singleton.mp hy ▸ hxy ▸ hx)⟩
  owned i x hx := by
    obtain ⟨hmem, hused⟩ := h.owned i x hx
    exact ⟨List.mem_append_left _ hmem, hused⟩
  unique := h.unique
  owner_of x hx hused := by
    rcases List.mem_append.mp hx with hx | hx
    · exact h.owner_of x hx hused
    · rw [List.mem_singleton.mp hx] at hused
      exact absurd hused hfree

variable [DecidableEq ι]

/-- A holder without an item takes one that is not in use. -/
theorem acquire (h : Owners items used owner) (hi : owner i = none) (hr : r ∈ items)
    (hfree : ¬ used r) (hused : ∀ x ∈ items, used' x ↔ x = r ∨ used x)
    (howner : ∀ j, owner' j = Function.update owner i (some r) j) : Owners items used' owner' := by
  -- the new owner, or one from before, whose item is another one since it was in use
  have hcases {j : ι} {x : ρ} (hj : owner' j = some x) :
      (j = i ∧ x = r) ∨ (j ≠ i ∧ x ≠ r ∧ owner j = some x) := by
    rw [howner] at hj
    by_cases hji : j = i
    · subst hji
      rw [Function.update_self] at hj
      exact .inl ⟨rfl, (Option.some.inj hj).symm⟩
    · rw [Function.update_of_ne hji] at hj
      exact .inr ⟨hji, fun hxr => hfree (hxr ▸ (h.owned j x hj).2), hj⟩
  refine ⟨h.nodup, fun j x hj => ?_, fun j k x hj hk => ?_, fun x hx hxused => ?_⟩
  · rcases hcases hj with ⟨-, rfl⟩ | ⟨-, -, hold⟩
    · exact ⟨hr, (hused x hr).mpr (.inl rfl)⟩
    · obtain ⟨hmem, hx⟩ := h.owned j x hold
      exact ⟨hmem, (hused x hmem).mpr (.inr hx)⟩
  · rcases hcases hj with ⟨rfl, rfl⟩ | ⟨-, hne, hold⟩
    · rcases hcases hk with ⟨rfl, -⟩ | ⟨-, hne, -⟩
      · rfl
      · exact absurd rfl hne
    · rcases hcases hk with ⟨-, rfl⟩ | ⟨-, -, hold'⟩
      · exact absurd rfl hne
      · exact h.unique j k x hold hold'
  · rcases (hused x hx).mp hxused with rfl | hx'
    · exact ⟨i, by rw [howner, Function.update_self]⟩
    · obtain ⟨j, hj⟩ := h.owner_of x hx hx'
      have hji : j ≠ i := fun heq => by
        rw [heq, hi] at hj
        cases hj
      exact ⟨j, by rw [howner, Function.update_of_ne hji, hj]⟩

/-- The other holders keep what they own when one lets go. -/
theorem of_let_go (h : Owners items used owner) (hi : owner i = some r) {j : ι} {x : ρ}
    (hj : Function.update owner i none j = some x) : j ≠ i ∧ x ≠ r ∧ owner j = some x := by
  have hji : j ≠ i := fun heq => by
    rw [heq, Function.update_self] at hj
    cases hj
  rw [Function.update_of_ne hji] at hj
  exact ⟨hji, fun heq => hji (h.unique j i x hj (heq ▸ hi)), hj⟩

/-- A holder lets go of its item, which is then not in use. -/
theorem release (h : Owners items used owner) (hi : owner i = some r)
    (hused : ∀ x ∈ items, used' x ↔ x ≠ r ∧ used x)
    (howner : ∀ j, owner' j = Function.update owner i none j) : Owners items used' owner' := by
  refine ⟨h.nodup, fun j x hj => ?_, fun j k x hj hk => ?_, fun x hx hxused => ?_⟩
  · rw [howner] at hj
    obtain ⟨-, hne, hold⟩ := h.of_let_go hi hj
    obtain ⟨hmem, hx⟩ := h.owned j x hold
    exact ⟨hmem, (hused x hmem).mpr ⟨hne, hx⟩⟩
  · rw [howner] at hj hk
    exact h.unique j k x (h.of_let_go hi hj).2.2 (h.of_let_go hi hk).2.2
  · obtain ⟨hne, hx'⟩ := (hused x hx).mp hxused
    obtain ⟨j, hj⟩ := h.owner_of x hx hx'
    have hji : j ≠ i := fun heq => by
      rw [heq, hi] at hj
      exact hne (Option.some.inj hj).symm
    exact ⟨j, by rw [howner, Function.update_of_ne hji, hj]⟩

/-- A holder removes its item from the list. -/
theorem remove [DecidableEq ρ] (h : Owners items used owner) (hi : owner i = some r)
    (hused : ∀ x ∈ items, used' x ↔ used x)
    (howner : ∀ j, owner' j = Function.update owner i none j) :
    Owners (items.erase r) used' owner' := by
  refine ⟨h.nodup.sublist List.erase_sublist, fun j x hj => ?_, fun j k x hj hk => ?_,
    fun x hx hxused => ?_⟩
  · rw [howner] at hj
    obtain ⟨-, hne, hold⟩ := h.of_let_go hi hj
    obtain ⟨hmem, hx⟩ := h.owned j x hold
    exact ⟨(List.mem_erase_of_ne hne).mpr hmem, (hused x hmem).mpr hx⟩
  · rw [howner] at hj hk
    exact h.unique j k x (h.of_let_go hi hj).2.2 (h.of_let_go hi hk).2.2
  · obtain ⟨hne, hmem⟩ := h.nodup.mem_erase_iff.mp hx
    obtain ⟨j, hj⟩ := h.owner_of x hmem ((hused x hmem).mp hxused)
    have hji : j ≠ i := fun heq => by
      rw [heq, hi] at hj
      exact hne (Option.some.inj hj).symm
    exact ⟨j, by rw [howner, Function.update_of_ne hji, hj]⟩

end Owners

end HeliumOS.Lib
