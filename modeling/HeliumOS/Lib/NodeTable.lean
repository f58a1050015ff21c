import Mathlib.Order.Lattice
import Mathlib.Order.Nat
import Mathlib.Data.List.Basic
import Mathlib.Logic.Function.Basic
import Mathlib.Tactic.Common
import HeliumOS.Lib.Run

/-!
# Tables of Sorted Nodes

A table keeps its entries inline in the arrays of nodes, each array sorted by key, as the nodes of a
B-tree do.  An entry is found again by its key, but its address, a node and an index, changes when
the table grows.

## Main definitions
- `NodeTable`: the arrays, with the height of every node; its fields say that they are sorted and
  that no key occurs twice.
- `NodeTable.Step`: an entry is placed into a node, a node is split and its middle entry moves one
  level up, or a new root is added.
- `TableMove.Displaces`: the moves that change the address of an entry.

## Main results
- `Step.moves`: a move that displaces an entry takes it to an address further on; every other move
  leaves it where it is.
- `holds_iff`: an address remains that of an entry exactly as long as nothing displaces it.
-/

namespace HeliumOS.Lib

variable {κ α : Type*} [LinearOrder κ]

/-! ## Sorted arrays -/

/-- The array of a node is sorted by key. -/
def SortedKeys (es : List (κ × α)) : Prop := es.Pairwise fun a b => a.1 < b.1

/-- Put an entry in front of the first one with a larger key. -/
def insertEntry (e : κ × α) : List (κ × α) → List (κ × α)
  | [] => [e]
  | x :: xs => if e.1 < x.1 then e :: x :: xs else x :: insertEntry e xs

section Arrays

variable {e x : κ × α} {es lo hi : List (κ × α)}

theorem mem_insertEntry : x ∈ insertEntry e es ↔ x = e ∨ x ∈ es := by
  induction es with
  | nil => simp [insertEntry]
  | cons y ys ih =>
    unfold insertEntry
    split_ifs
    · rw [List.mem_cons]
    · rw [List.mem_cons, ih, List.mem_cons]
      tauto

theorem SortedKeys.insertEntry (h : SortedKeys es) (hnew : ∀ x ∈ es, x.1 ≠ e.1) :
    SortedKeys (insertEntry e es) := by
  induction es with
  | nil => exact List.pairwise_singleton ..
  | cons y ys ih =>
    obtain ⟨hy, hys⟩ := List.pairwise_cons.mp h
    unfold Lib.insertEntry
    split_ifs with hlt
    · refine List.pairwise_cons.mpr ⟨fun z hz => ?_, h⟩
      rcases List.mem_cons.mp hz with rfl | hz
      · exact hlt
      · exact hlt.trans (hy z hz)
    · have hye : y.1 < e.1 := lt_of_le_of_ne (not_lt.mp hlt) (hnew y List.mem_cons_self)
      refine List.pairwise_cons.mpr ⟨fun z hz => ?_, ih hys fun x hx => hnew x (.tail y hx)⟩
      rcases mem_insertEntry.mp hz with rfl | hz
      · exact hye
      · exact hy z hz

/-- A new entry shifts those with a larger key; those with a smaller one stay where they are. -/
theorem getElem?_insertEntry {i : ℕ} (h : SortedKeys es) (hx : es[i]? = some x) :
    (¬ e.1 < x.1 ∧ (insertEntry e es)[i]? = some x) ∨
      (e.1 < x.1 ∧ (insertEntry e es)[i + 1]? = some x) := by
  induction es generalizing i with
  | nil => simp at hx
  | cons y ys ih =>
    obtain ⟨hy, hys⟩ := List.pairwise_cons.mp h
    unfold insertEntry
    split_ifs with hey
    · -- the new entry comes first, so that `x` is behind it
      refine .inr ⟨?_, hx⟩
      rcases List.mem_cons.mp (List.mem_of_getElem? hx) with rfl | hmem
      · exact hey
      · exact hey.trans (hy x hmem)
    · cases i with
      | zero =>
        cases hx
        exact .inl ⟨hey, rfl⟩
      | succ i => exact ih hys hx

theorem SortedKeys.eq_of_getElem? {i j : ℕ} {a b : α} {k : κ} (h : SortedKeys es)
    (hi : es[i]? = some (k, a)) (hj : es[j]? = some (k, b)) : i = j := by
  obtain ⟨hi', hi⟩ := List.getElem?_eq_some_iff.mp hi
  obtain ⟨hj', hj⟩ := List.getElem?_eq_some_iff.mp hj
  rcases lt_trichotomy i j with hlt | heq | hgt
  · have := List.pairwise_iff_getElem.mp h i j hi' hj' hlt
    rw [hi, hj] at this
    exact absurd this (lt_irrefl k)
  · exact heq
  · have := List.pairwise_iff_getElem.mp h j i hj' hi' hgt
    rw [hi, hj] at this
    exact absurd this (lt_irrefl k)

/-- An entry of an array that is split at `e`. -/
theorem getElem?_split {i : ℕ} (h : SortedKeys (lo ++ e :: hi))
    (hx : (lo ++ e :: hi)[i]? = some x) :
    (x.1 < e.1 ∧ lo[i]? = some x) ∨ x = e ∨ (e.1 < x.1 ∧ x ∈ hi) := by
  obtain ⟨-, htail, hbefore⟩ := List.pairwise_append.mp h
  rw [List.getElem?_append] at hx
  split_ifs at hx
  · exact .inl ⟨hbefore x (List.mem_of_getElem? hx) e List.mem_cons_self, hx⟩
  · rcases List.mem_cons.mp (List.mem_of_getElem? hx) with rfl | hmem
    · exact .inr (.inl rfl)
    · exact .inr (.inr ⟨(List.pairwise_cons.mp htail).1 x hmem, hmem⟩)

end Arrays

/-! ## Tables -/

/-- The arrays of the nodes.  The nodes from `next` on are not used yet. -/
structure NodeTable (κ α : Type*) [LinearOrder κ] where
  node : ℕ → List (κ × α)
  height : ℕ → ℕ
  next : ℕ
  sorted : ∀ n, SortedKeys (node n)
  unused : ∀ n, next ≤ n → node n = []
  unique : ∀ m n x y, x ∈ node m → y ∈ node n → x.1 = y.1 → m = n

/-- The ways in which a table grows. -/
inductive TableMove (κ α : Type*) where
  | place (n : ℕ) (k : κ) (a : α)
  | split (n : ℕ) (k : κ) (p : ℕ)
  | grow (height : ℕ)

/-- The move changes the address of the entry `k` of node `n`. -/
def TableMove.Displaces (n : ℕ) (k : κ) : TableMove κ α → Prop
  | .place m k' _ => m = n ∧ k' < k
  | .split m k' p => (m = n ∧ k' ≤ k) ∨ (p = n ∧ k' < k)
  | .grow _ => False

namespace NodeTable

variable {t t' : NodeTable κ α} {m n p : ℕ} {k : κ} {a b : α} {x y : κ × α} {lo hi : List (κ × α)}

/-- A table without nodes. -/
def empty : NodeTable κ α where
  node _ := []
  height _ := 0
  next := 0
  sorted _ := List.Pairwise.nil
  unused _ _ := rfl
  unique _ _ _ _ h := absurd h (by simp)

/-- What is stored at an address. -/
def slot (t : NodeTable κ α) (adr : ℕ × ℕ) : Option (κ × α) := (t.node adr.1)[adr.2]?

/-- No entry has the key. -/
def Absent (t : NodeTable κ α) (k : κ) : Prop := ∀ n, ∀ x ∈ t.node n, x.1 ≠ k

theorem lt_next (h : x ∈ t.node n) : n < t.next := by
  by_contra hle
  rw [t.unused n (not_lt.mp hle)] at h
  exact absurd h (by simp)

/-- Every key has one address. -/
theorem slot_unique {adr adr' : ℕ × ℕ} (h : t.slot adr = some (k, a))
    (h' : t.slot adr' = some (k, b)) :
    adr = adr' := by
  obtain ⟨n, i⟩ := adr
  obtain ⟨n', i'⟩ := adr'
  obtain rfl : n = n' :=
    t.unique n n' _ _ (List.mem_of_getElem? h) (List.mem_of_getElem? h') rfl
  obtain rfl : i = i' := (t.sorted n).eq_of_getElem? h h'
  rfl

/-! ## Placing an entry -/

/-- The arrays with a new entry in one of them. -/
def placed (t : NodeTable κ α) (n : ℕ) (e : κ × α) : ℕ → List (κ × α) :=
  Function.update t.node n (insertEntry e (t.node n))

/-- An entry is the new one, or it was in the same node before. -/
theorem mem_placed {e : κ × α} (h : x ∈ t.placed n e m) : (m = n ∧ x = e) ∨ x ∈ t.node m := by
  unfold placed at h
  rcases eq_or_ne m n with rfl | hne
  · rw [Function.update_self] at h
    rcases mem_insertEntry.mp h with rfl | hx
    · exact .inl ⟨rfl, rfl⟩
    · exact .inr hx
  · rw [Function.update_of_ne hne] at h
    exact .inr h

theorem sorted_placed {e : κ × α} (hnew : t.Absent e.1) (m : ℕ) : SortedKeys (t.placed n e m) := by
  unfold placed
  rcases eq_or_ne m n with rfl | hne
  · rw [Function.update_self]
    exact (t.sorted m).insertEntry (hnew m)
  · rw [Function.update_of_ne hne]
    exact t.sorted m

theorem unused_placed {e : κ × α} (hn : n < t.next) (m : ℕ) (hm : t.next ≤ m) :
    t.placed n e m = [] := by
  rw [placed, Function.update_of_ne (by omega)]
  exact t.unused m hm

theorem unique_placed {e : κ × α} (hnew : t.Absent e.1) (m m' : ℕ) (x y : κ × α)
    (hx : x ∈ t.placed n e m) (hy : y ∈ t.placed n e m') (hxy : x.1 = y.1) : m = m' := by
  rcases mem_placed hx with ⟨rfl, rfl⟩ | hx' <;> rcases mem_placed hy with ⟨rfl, rfl⟩ | hy'
  · rfl
  · exact absurd hxy.symm (hnew m' y hy')
  · exact absurd hxy (hnew m x hx')
  · exact t.unique m m' x y hx' hy' hxy

/-- Put a new entry into the array of a node. -/
def place (t : NodeTable κ α) (n : ℕ) (e : κ × α) (hn : n < t.next) (hnew : t.Absent e.1) :
    NodeTable κ α :=
  ⟨t.placed n e, t.height, t.next, sorted_placed hnew, unused_placed hn, unique_placed hnew⟩

@[simp] theorem node_place {e : κ × α} {hn : n < t.next} {hnew : t.Absent e.1} :
    (t.place n e hn hnew).node n = insertEntry e (t.node n) := Function.update_self ..

/-! ## Splitting a node -/

/-- The arrays when node `n` has been split: `lo` stays, `e` is put into node `p`, and `hi` is moved
to a new node. -/
def halved (t : NodeTable κ α) (n : ℕ) (lo : List (κ × α)) (e : κ × α) (hi : List (κ × α)) (p : ℕ) :
    ℕ → List (κ × α) :=
  Function.update (Function.update (Function.update t.node n lo) p (insertEntry e (t.node p)))
    t.next hi

theorem halved_next {e : κ × α} : t.halved n lo e hi p t.next = hi := Function.update_self ..

theorem halved_other {e : κ × α} (hn : m ≠ n) (hp : m ≠ p) (hnext : m ≠ t.next) :
    t.halved n lo e hi p m = t.node m := by
  rw [halved, Function.update_of_ne hnext, Function.update_of_ne hp, Function.update_of_ne hn]

/-- A node can be split in this way. -/
structure Splits (t : NodeTable κ α) (n : ℕ) (lo : List (κ × α)) (e : κ × α) (hi : List (κ × α))
    (p : ℕ) : Prop where
  array : t.node n = lo ++ e :: hi
  parent : p < t.next
  level : t.height p = t.height n + 1

section Splits

variable {e : κ × α} (h : t.Splits n lo e hi p)
include h

theorem Splits.mem : e ∈ t.node n := by rw [h.array]; simp

theorem Splits.node_lt : n < t.next := lt_next h.mem

theorem Splits.ne : p ≠ n := by
  rintro rfl
  have := h.level
  omega

theorem Splits.sorted : SortedKeys (lo ++ e :: hi) := h.array ▸ t.sorted n

theorem Splits.halved_node : t.halved n lo e hi p n = lo := by
  have := h.node_lt
  rw [halved, Function.update_of_ne (by omega), Function.update_of_ne h.ne.symm,
    Function.update_self]

theorem Splits.halved_parent : t.halved n lo e hi p p = insertEntry e (t.node p) := by
  have := h.parent
  rw [halved, Function.update_of_ne (by omega), Function.update_self]

/-- Where an entry of the new arrays has come from. -/
theorem Splits.mem_halved (hx : x ∈ t.halved n lo e hi p m) :
    (m = n ∧ x ∈ lo) ∨ (m = p ∧ x = e) ∨ (m = t.next ∧ x ∈ hi) ∨ (m ≠ n ∧ x ∈ t.node m) := by
  rcases eq_or_ne m n with rfl | hn
  · rw [h.halved_node] at hx
    exact .inl ⟨rfl, hx⟩
  rcases eq_or_ne m p with rfl | hp
  · rw [h.halved_parent] at hx
    rcases mem_insertEntry.mp hx with rfl | hx
    · exact .inr (.inl ⟨rfl, rfl⟩)
    · exact .inr (.inr (.inr ⟨hn, hx⟩))
  rcases eq_or_ne m t.next with rfl | hnext
  · rw [halved_next] at hx
    exact .inr (.inr (.inl ⟨rfl, hx⟩))
  · rw [halved_other hn hp hnext] at hx
    exact .inr (.inr (.inr ⟨hn, hx⟩))

/-- The node of an entry is determined by the one it has come from and its key. -/
theorem Splits.origin (hx : x ∈ t.halved n lo e hi p m) :
    ∃ m₀, x ∈ t.node m₀ ∧
      m = if m₀ = n then if x.1 < e.1 then n else if x.1 = e.1 then p else t.next else m₀ := by
  obtain ⟨-, htail, hbefore⟩ := List.pairwise_append.mp h.sorted
  rcases h.mem_halved hx with ⟨rfl, hlo⟩ | ⟨rfl, rfl⟩ | ⟨rfl, hhi⟩ | ⟨hne, hold⟩
  · refine ⟨m, by simp [h.array, hlo], ?_⟩
    rw [if_pos rfl, if_pos (hbefore x hlo e List.mem_cons_self)]
  · refine ⟨n, h.mem, ?_⟩
    rw [if_pos rfl, if_neg (lt_irrefl _), if_pos rfl]
  · have hlt : e.1 < x.1 := (List.pairwise_cons.mp htail).1 x hhi
    refine ⟨n, by simp [h.array, hhi], ?_⟩
    rw [if_pos rfl, if_neg hlt.not_gt, if_neg hlt.ne']
  · exact ⟨m, hold, by rw [if_neg hne]⟩

/-- The arrays are sorted after a split; the parent does not have the key of the middle entry yet.
-/
theorem Splits.sorted_halved (m : ℕ) : SortedKeys (t.halved n lo e hi p m) := by
  obtain ⟨hlo, htail, -⟩ := List.pairwise_append.mp h.sorted
  rcases eq_or_ne m n with rfl | hn
  · rw [h.halved_node]
    exact hlo
  rcases eq_or_ne m p with rfl | hp
  · rw [h.halved_parent]
    refine (t.sorted m).insertEntry fun x hx heq => hn ?_
    exact t.unique m n x e hx h.mem heq
  rcases eq_or_ne m t.next with rfl | hnext
  · rw [halved_next]
    exact (List.pairwise_cons.mp htail).2
  · rw [halved_other hn hp hnext]
    exact t.sorted m

theorem Splits.unused_halved (m : ℕ) (hm : t.next + 1 ≤ m) : t.halved n lo e hi p m = [] := by
  have hn := h.node_lt
  have hp := h.parent
  rw [halved_other (by omega) (by omega) (by omega)]
  exact t.unused m (by omega)

/-- No key occurs twice after a split: where an entry goes is a function of where it was and its
key. -/
theorem Splits.unique_halved (m m' : ℕ) (x y : κ × α) (hx : x ∈ t.halved n lo e hi p m)
    (hy : y ∈ t.halved n lo e hi p m') (hxy : x.1 = y.1) : m = m' := by
  obtain ⟨m₀, hx₀, rfl⟩ := h.origin hx
  obtain ⟨m₁, hy₁, rfl⟩ := h.origin hy
  rw [t.unique m₀ m₁ x y hx₀ hy₁ hxy, hxy]

end Splits

/-- Split a node at an entry, which moves one level up. -/
def split (t : NodeTable κ α) (n : ℕ) (lo : List (κ × α)) (e : κ × α) (hi : List (κ × α)) (p : ℕ)
    (h : t.Splits n lo e hi p) : NodeTable κ α :=
  ⟨t.halved n lo e hi p, Function.update t.height t.next (t.height n), t.next + 1,
    h.sorted_halved, h.unused_halved, h.unique_halved⟩

/-- Add an empty node. -/
def grow (t : NodeTable κ α) (height : ℕ) : NodeTable κ α :=
  ⟨t.node, Function.update t.height t.next height, t.next + 1, t.sorted,
    fun m hm => t.unused m (Nat.le_of_succ_le hm), t.unique⟩

/-! ## Moves -/

/-- The moves of a table. -/
inductive Step : NodeTable κ α → TableMove κ α → NodeTable κ α → Prop where
  | place {t : NodeTable κ α} {n : ℕ} {e : κ × α} (hn : n < t.next) (hnew : t.Absent e.1) :
      Step t (.place n e.1 e.2) (t.place n e hn hnew)
  | split {t : NodeTable κ α} {n p : ℕ} {lo hi : List (κ × α)} {e : κ × α}
      (h : t.Splits n lo e hi p) : Step t (.split n e.1 p) (t.split n lo e hi p h)
  | grow {t : NodeTable κ α} (height : ℕ) : Step t (.grow height) (t.grow height)

/-- The second address comes after the first one: it is on a higher level, or in a later node of the
same level, or further on in the same node. -/
def Later (t : NodeTable κ α) (adr adr' : ℕ × ℕ) : Prop :=
  t.height adr.1 < t.height adr'.1 ∨
    (t.height adr.1 = t.height adr'.1 ∧ (adr.1 < adr'.1 ∨ (adr.1 = adr'.1 ∧ adr.2 < adr'.2)))

theorem Later.ne {adr adr' : ℕ × ℕ} (h : t.Later adr adr') : adr ≠ adr' := by
  rintro rfl
  unfold Later at h
  omega

theorem Later.trans {adr₁ adr₂ adr₃ : ℕ × ℕ} (h : t.Later adr₁ adr₂) (h' : t.Later adr₂ adr₃) :
    t.Later adr₁ adr₃ := by
  unfold Later at *
  omega

/-- The height of a node that is used does not change. -/
theorem Step.height_eq {move : TableMove κ α} (h : Step t move t') (hn : n < t.next) :
    t'.height n = t.height n := by
  cases h with
  | place => rfl
  | split => exact Function.update_of_ne (by omega) ..
  | grow => exact Function.update_of_ne (by omega) ..

theorem slot_lt_next {adr : ℕ × ℕ} (h : t.slot adr = some x) : adr.1 < t.next :=
  lt_next (List.mem_of_getElem? h)

/-- A later address remains one. -/
theorem Later.step {move : TableMove κ α} {adr adr' : ℕ × ℕ} (h : t.Later adr adr')
    (hstep : Step t move t') (hadr : adr.1 < t.next) (hadr' : adr'.1 < t.next) :
    t'.Later adr adr' := by
  unfold Later
  rwa [hstep.height_eq hadr, hstep.height_eq hadr']

theorem Later.shift (adr : ℕ × ℕ) : t.Later adr (adr.1, adr.2 + 1) :=
  .inr ⟨rfl, .inr ⟨rfl, Nat.lt_succ_self _⟩⟩

/-- Placing an entry shifts those with larger keys in the same array. -/
theorem place_moves {adr : ℕ × ℕ} {e : κ × α} (hn : n < t.next) (hnew : t.Absent e.1)
    (hx : t.slot adr = some x) :
    (¬ (n = adr.1 ∧ e.1 < x.1) ∧ (t.place n e hn hnew).slot adr = some x) ∨
      ((n = adr.1 ∧ e.1 < x.1) ∧ (t.place n e hn hnew).slot (adr.1, adr.2 + 1) = some x) := by
  obtain ⟨m, i⟩ := adr
  rcases eq_or_ne m n with rfl | hne
  · have hslot (j : ℕ) : (t.place m e hn hnew).slot (m, j) = (insertEntry e (t.node m))[j]? := by
      rw [slot, node_place]
    rw [hslot, hslot]
    rcases getElem?_insertEntry (t.sorted m) hx with ⟨hle, hi⟩ | ⟨hlt, hi⟩
    · exact .inl ⟨fun h => hle h.2, hi⟩
    · exact .inr ⟨⟨rfl, hlt⟩, hi⟩
  · left
    refine ⟨fun h => hne h.1.symm, ?_⟩
    change (t.placed n e m)[i]? = _
    rw [placed, Function.update_of_ne hne]
    exact hx

section SplitMoves

variable {e : κ × α} {i : ℕ} (h : t.Splits n lo e hi p)
include h

theorem slot_split (m j : ℕ) :
    (t.split n lo e hi p h).slot (m, j) = (t.halved n lo e hi p m)[j]? := rfl

theorem height_split (hm : m < t.next) : (t.split n lo e hi p h).height m = t.height m :=
  (Step.split h).height_eq hm

theorem height_split_next : (t.split n lo e hi p h).height t.next = t.height n :=
  Function.update_self ..

/-- The entries of the node that is split: those before the middle one stay, the middle one moves
up, and the others move to the new node. -/
theorem split_moves_node (hx : (t.node n)[i]? = some x) :
    (x.1 < e.1 ∧ (t.split n lo e hi p h).slot (n, i) = some x) ∨
      (e.1 ≤ x.1 ∧ ∃ adr', (t.split n lo e hi p h).slot adr' = some x ∧
        (t.split n lo e hi p h).Later (n, i) adr') := by
  have hn := h.node_lt
  rw [h.array] at hx
  rcases getElem?_split h.sorted hx with ⟨hlt, hlo⟩ | rfl | ⟨hlt, hmem⟩
  · exact .inl ⟨hlt, by rw [slot_split, h.halved_node, hlo]⟩
  · have hmem : x ∈ insertEntry x (t.node p) := mem_insertEntry.mpr (.inl rfl)
    obtain ⟨j, hj⟩ := List.mem_iff_getElem?.mp hmem
    refine .inr ⟨le_rfl, (p, j), by rw [slot_split, h.halved_parent, hj], .inl ?_⟩
    rw [height_split h hn, height_split h h.parent, h.level]
    exact Nat.lt_succ_self _
  · obtain ⟨j, hj⟩ := List.mem_iff_getElem?.mp hmem
    refine .inr ⟨hlt.le, (t.next, j), by rw [slot_split, halved_next, hj], .inr ⟨?_, .inl hn⟩⟩
    rw [height_split h hn, height_split_next]

/-- The entries of the parent: those behind the new one are shifted. -/
theorem split_moves_parent (hx : (t.node p)[i]? = some x) :
    (¬ e.1 < x.1 ∧ (t.split n lo e hi p h).slot (p, i) = some x) ∨
      (e.1 < x.1 ∧ (t.split n lo e hi p h).slot (p, i + 1) = some x) := by
  rw [slot_split, slot_split, h.halved_parent]
  exact getElem?_insertEntry (t.sorted p) hx

/-- Splitting a node takes away the entries from the middle one on, and shifts those of the parent
that are larger than it. -/
theorem split_moves {adr : ℕ × ℕ} (hx : t.slot adr = some x) :
    (¬ ((n = adr.1 ∧ e.1 ≤ x.1) ∨ (p = adr.1 ∧ e.1 < x.1)) ∧
        (t.split n lo e hi p h).slot adr = some x) ∨
      (((n = adr.1 ∧ e.1 ≤ x.1) ∨ (p = adr.1 ∧ e.1 < x.1)) ∧
        ∃ adr', (t.split n lo e hi p h).slot adr' = some x ∧
          (t.split n lo e hi p h).Later adr adr') := by
  have hadr := slot_lt_next hx
  obtain ⟨m, i⟩ := adr
  -- an entry of the node that is split, of its parent, or of another node
  rcases eq_or_ne m n with rfl | hmn
  · rcases split_moves_node h hx with ⟨hlt, hslot⟩ | ⟨hle, hmoved⟩
    · refine .inl ⟨?_, hslot⟩
      rintro (⟨-, hle⟩ | ⟨rfl, -⟩)
      · exact hle.not_gt hlt
      · exact h.ne rfl
    · exact .inr ⟨.inl ⟨rfl, hle⟩, hmoved⟩
  rcases eq_or_ne m p with rfl | hmp
  · rcases split_moves_parent h hx with ⟨hle, hslot⟩ | ⟨hlt, hslot⟩
    · refine .inl ⟨?_, hslot⟩
      rintro (⟨rfl, -⟩ | ⟨-, hlt⟩)
      · exact hmn rfl
      · exact hle hlt
    · exact .inr ⟨.inr ⟨rfl, hlt⟩, _, hslot, .shift _⟩
  · -- the other nodes that are used remain as they are
    left
    refine ⟨?_, ?_⟩
    · rintro (⟨rfl, -⟩ | ⟨rfl, -⟩)
      · exact hmn rfl
      · exact hmp rfl
    · rw [slot_split, halved_other hmn hmp (Nat.ne_of_lt hadr)]
      exact hx

end SplitMoves

/-- A move that displaces an entry takes it to a later address; every other one leaves it alone. -/
theorem Step.moves {move : TableMove κ α} {adr : ℕ × ℕ} (h : Step t move t')
    (hx : t.slot adr = some x) :
    (¬ move.Displaces adr.1 x.1 ∧ t'.slot adr = some x) ∨
      (move.Displaces adr.1 x.1 ∧ ∃ adr', t'.slot adr' = some x ∧ t'.Later adr adr') := by
  cases h with
  | place hn hnew =>
    rcases place_moves hn hnew hx with hstays | ⟨hdisp, hslot⟩
    · exact .inl hstays
    · exact .inr ⟨hdisp, _, hslot, .shift _⟩
  | split hs => exact split_moves hs hx
  | grow height => exact .inl ⟨id, hx⟩

theorem Step.next_le {move : TableMove κ α} (h : Step t move t') : t.next ≤ t'.next := by
  cases h with
  | place => exact le_rfl
  | split => exact Nat.le_succ _
  | grow => exact Nat.le_succ _

/-- An entry was in the table before, or it has just been placed. -/
theorem Step.mem_of_mem {move : TableMove κ α} (h : Step t move t') (hx : x ∈ t'.node n) :
    (∃ m, x ∈ t.node m) ∨ move = .place n x.1 x.2 := by
  cases h with
  | place hn hnew =>
    rcases mem_placed hx with ⟨rfl, rfl⟩ | hold
    · exact .inr rfl
    · exact .inl ⟨n, hold⟩
  | split hs =>
    obtain ⟨m, hm, -⟩ := hs.origin hx
    exact .inl ⟨m, hm⟩
  | grow => exact .inl ⟨n, hx⟩

section Runs

variable {moves : List (TableMove κ α)} {adr : ℕ × ℕ}

theorem run_next_le (h : Run Step t moves t') : t.next ≤ t'.next :=
  h.preserves (I := fun t' => t.next ≤ t'.next) le_rfl fun _ _ _ hle hstep =>
    hle.trans hstep.next_le

/-- What a run does to an entry: it stays as long as nothing displaces it, and once displaced it
never comes back. -/
theorem run_moves (h : Run Step t moves t') (hx : t.slot adr = some x) :
    ((∀ move ∈ moves, ¬ move.Displaces adr.1 x.1) ∧ t'.slot adr = some x) ∨
      ((∃ move ∈ moves, move.Displaces adr.1 x.1) ∧
        ∃ adr', t'.slot adr' = some x ∧ t'.Later adr adr') := by
  induction h with
  | nil => exact .inl ⟨by simp, hx⟩
  | @snoc s₁ s' moves move hrun hstep ih =>
    rcases ih with ⟨hnone, hslot⟩ | ⟨⟨m, hm, hdisp⟩, adr₁, hslot, hlater⟩
    · rcases hstep.moves hslot with ⟨hnot, hslot'⟩ | ⟨hdisp, hmoved⟩
      · refine .inl ⟨fun m hm => ?_, hslot'⟩
        rcases List.mem_append.mp hm with hm | hm
        · exact hnone m hm
        · rwa [List.mem_singleton.mp hm]
      · exact .inr ⟨⟨move, by simp, hdisp⟩, hmoved⟩
    · -- the entry is at a later address already, and goes on only to later ones
      have hadr : adr.1 < s₁.next := (slot_lt_next hx).trans_le (run_next_le hrun)
      have hlater' : s'.Later adr adr₁ := hlater.step hstep hadr (slot_lt_next hslot)
      refine .inr ⟨⟨m, List.mem_append_left _ hm, hdisp⟩, ?_⟩
      rcases hstep.moves hslot with ⟨-, hslot'⟩ | ⟨-, adr₂, hslot', hlater₂⟩
      · exact ⟨adr₁, hslot', hlater'⟩
      · exact ⟨adr₂, hslot', hlater'.trans hlater₂⟩

/-- An entry was in the table before the run, or the run has placed it. -/
theorem mem_of_run (h : Run Step t moves t') (hx : x ∈ t'.node n) :
    (∃ m, x ∈ t.node m) ∨ ∃ m, .place m x.1 x.2 ∈ moves := by
  induction h generalizing n with
  | nil => exact .inl ⟨n, hx⟩
  | snoc hrun hstep ih =>
    rcases hstep.mem_of_mem hx with ⟨m, hm⟩ | rfl
    · rcases ih hm with hold | ⟨m', hm'⟩
      · exact .inl hold
      · exact .inr ⟨m', List.mem_append_left _ hm'⟩
    · exact .inr ⟨n, by simp⟩

/-- An address remains that of an entry exactly as long as nothing displaces the entry. The value
may change, but a reference to it stays good. -/
theorem holds_iff (h : Run Step t moves t') (hx : t.slot adr = some (k, a)) :
    (∃ b, t'.slot adr = some (k, b)) ↔ ∀ move ∈ moves, ¬ move.Displaces adr.1 k := by
  rcases run_moves h hx with ⟨hnone, hslot⟩ | ⟨⟨m, hm, hdisp⟩, adr', hslot, hlater⟩
  · exact ⟨fun _ => hnone, fun _ => ⟨a, hslot⟩⟩
  · constructor
    · rintro ⟨b, hb⟩
      exact absurd (slot_unique hb hslot) hlater.ne
    · exact fun hnone => absurd hdisp (hnone m hm)

end Runs

end NodeTable

end HeliumOS.Lib
