import Mathlib.Data.Set.BooleanAlgebra
import Mathlib.Data.List.Induction
import Mathlib.Logic.Function.Basic
import Mathlib.Order.CompletePartialOrder

/-!
# Radix Trees in a Store of Tables

A store maps table names `φ` and indices `ι` to words `ω`.  A partial function
`child : ω → Option φ` says which words are links to further tables, so that a root and a list
of indices describe a walk through the store.

- `walk` follows links; `stop` follows them as far as they go and returns the word it ends on
  together with the indices that were not used.
- `IsTree`: no table is reached by two different walks of length at most `d`.
- The tree survives the updates that a mapper makes: rewriting words of the tables at depth `d`
  (`AgreeAbove`), linking a fresh empty table below one of smaller depth (`LinkSite`), and cutting
  links (`Prunes`).
-/

namespace HeliumOS.Lib.Radix

variable {φ ι ω : Type}

/-- A store of tables. -/
abbrev Store (φ ι ω : Type) := φ → ι → ω

namespace Store

variable [DecidableEq φ]

/-- Replace one word. -/
def set [DecidableEq ι] (m : Store φ ι ω) (f : φ) (i : ι) (w : ω) : Store φ ι ω :=
  Function.update m f (Function.update (m f) i w)

/-- Replace every word of one table. -/
def fill (m : Store φ ι ω) (f : φ) (w : ω) : Store φ ι ω :=
  Function.update m f fun _ => w

theorem set_apply [DecidableEq ι] (m : Store φ ι ω) (f h : φ) (i k : ι) (w : ω) :
    m.set f i w h k = if h = f ∧ k = i then w else m h k := by
  by_cases hf : h = f
  · subst hf
    by_cases hi : k = i <;> simp [set, hi]
  · simp [set, hf]

@[simp] theorem set_self [DecidableEq ι] (m : Store φ ι ω) (f : φ) (i : ι) (w : ω) :
    m.set f i w f i = w := by simp [set]

theorem set_of_ne [DecidableEq ι] (m : Store φ ι ω) {f h : φ} (i : ι) (w : ω) (hne : h ≠ f) :
    m.set f i w h = m h := by simp [set, hne]

@[simp] theorem fill_self (m : Store φ ι ω) (f : φ) (w : ω) (k : ι) : m.fill f w f k = w := by
  simp [fill]

theorem fill_of_ne (m : Store φ ι ω) {f h : φ} (w : ω) (hne : h ≠ f) : m.fill f w h = m h := by
  simp [fill, hne]

theorem set_comm [DecidableEq ι] (m : Store φ ι ω) {f h : φ} (i k : ι) (v w : ω) (hne : f ≠ h) :
    (m.set f i v).set h k w = (m.set h k w).set f i v := by
  funext x y
  simp only [set_apply]
  by_cases hx : x = h
  · simp [hx, hne.symm]
  · simp [hx]

theorem set_fill [DecidableEq ι] (m : Store φ ι ω) {f h : φ} (i : ι) (v w : ω) (hne : f ≠ h) :
    (m.fill h w).set f i v = (m.set f i v).fill h w := by
  funext x y
  by_cases hx : x = h
  · rw [hx, fill_self, set_of_ne _ _ _ hne.symm, fill_self]
  · rw [fill_of_ne _ _ hx, set_apply, set_apply, fill_of_ne _ _ hx]

@[simp] theorem set_eq_self [DecidableEq ι] (m : Store φ ι ω) (f : φ) (i : ι) :
    m.set f i (m f i) = m := by simp [set]

theorem set_set [DecidableEq ι] (m : Store φ ι ω) (f : φ) (i : ι) (v w : ω) :
    (m.set f i v).set f i w = m.set f i w := by
  funext x y
  simp only [set_apply]
  split_ifs <;> rfl

end Store

/-! ## Walks -/

section Walks

variable (child : ω → Option φ)

/-- Follow the links along a list of indices. -/
def walk (m : Store φ ι ω) : φ → List ι → Option φ
  | f, [] => some f
  | f, i :: p => (child (m f i)).bind fun g => walk m g p

/-- Follow the links along `p` as far as they go, and finally index with `j`: the word at the
end and the indices left over. -/
def stop (m : Store φ ι ω) : φ → List ι → ι → ω × List ι
  | f, [], j => (m f j, [])
  | f, i :: p, j =>
    match child (m f i) with
    | some g => stop m g p j
    | none => (m f i, p ++ [j])

/-- The words on the way along `p`, and the one at index `j` in the end. -/
def trail (m : Store φ ι ω) : φ → List ι → ι → Option (List ω)
  | f, [], j => some [m f j]
  | f, i :: p, j => (child (m f i)).bind fun g => (trail m g p j).map (m f i :: ·)

/-- The tables reached by at most `d` steps. -/
def tables (m : Store φ ι ω) (root : φ) (d : ℕ) : Set φ :=
  {f | ∃ p : List ι, p.length ≤ d ∧ walk child m root p = some f}

/-- Different walks of at most `d` steps end in different tables. -/
def IsTree (m : Store φ ι ω) (root : φ) (d : ℕ) : Prop :=
  ∀ (p q : List ι) (f : φ), p.length ≤ d → q.length ≤ d →
    walk child m root p = some f → walk child m root q = some f → p = q

variable {child} {m m' : Store φ ι ω} {root f g h : φ} {i j k : ι} {p q r : List ι} {d : ℕ}

theorem walk_append :
    walk child m f (p ++ q) = (walk child m f p).bind fun g => walk child m g q := by
  induction p generalizing f with
  | nil => rfl
  | cons i p ih =>
    simp only [List.cons_append, walk, Option.bind_assoc]
    congr 1
    funext g
    exact ih

theorem walk_snoc :
    walk child m f (p ++ [k]) = (walk child m f p).bind fun h => child (m h k) := by
  rw [walk_append]
  congr 1
  funext g
  simp [walk]

theorem walk_snoc_eq_some :
    walk child m f (p ++ [k]) = some g ↔ ∃ h, walk child m f p = some h ∧
    child (m h k) = some g := by
  rw [walk_snoc, Option.bind_eq_some_iff]

theorem mem_tables_of_walk (hw : walk child m root p = some f) (hp : p.length ≤ d) :
    f ∈ tables child m root d := ⟨p, hp, hw⟩

/-- A complete walk ends on the word of its last table. -/
theorem stop_of_walk (hw : walk child m f p = some g) : stop child m f p j = (m g j, []) := by
  induction p generalizing f with
  | nil =>
    cases hw
    rfl
  | cons i p ih =>
    obtain ⟨h, hchild, hw⟩ := Option.bind_eq_some_iff.mp hw
    simp only [stop, hchild]
    exact ih hw

/-- A walk that meets a word without link ends there. -/
theorem stop_of_stuck (hw : walk child m f q = some h) (hnone : child (m h k) = none) :
    stop child m f (q ++ k :: r) j = (m h k, r ++ [j]) := by
  induction q generalizing f with
  | nil =>
    cases hw
    simp [stop, hnone]
  | cons i q ih =>
    obtain ⟨g, hchild, hw⟩ := Option.bind_eq_some_iff.mp hw
    simp only [List.cons_append, stop, hchild]
    exact ih hw

/-- Along a walk the trail is complete: the words of the links, and then the last word. -/
theorem trail_of_walk (hw : walk child m f p = some g) :
    ∃ ws, trail child m f p j = some (ws ++ [m g j]) ∧
      ∀ w ∈ ws, (child w).isSome ∧
        ∃ q k h, q ++ [k] <+: p ∧ walk child m f q = some h ∧ w = m h k := by
  induction p generalizing f with
  | nil =>
    cases hw
    exact ⟨[], rfl, by simp⟩
  | cons i p ih =>
    obtain ⟨h, hchild, hw⟩ := Option.bind_eq_some_iff.mp hw
    obtain ⟨ws, htrail, hws⟩ := ih hw
    -- the first value of the trail is the one at the root
    refine ⟨m f i :: ws, by simp [trail, hchild, htrail], fun w hmem => ?_⟩
    rcases List.mem_cons.mp hmem with rfl | hmem
    · exact ⟨by rw [hchild]; rfl, [], i, f, ⟨p, rfl⟩, rfl, rfl⟩
    · obtain ⟨hlink, q, k, h', hpath, hq, rfl⟩ := hws w hmem
      refine ⟨hlink, i :: q, k, h', ?_, by simp [walk, hchild, hq], rfl⟩
      rw [List.cons_append]
      exact List.cons_prefix_cons.mpr ⟨rfl, hpath⟩

/-- Either the whole walk succeeds, or there is a first word without link. -/
theorem walk_or_stuck (child : ω → Option φ) (m : Store φ ι ω) (f : φ) (p : List ι) :
    (∃ g, walk child m f p = some g) ∨
      ∃ q k r h, p = q ++ k :: r ∧ walk child m f q = some h ∧ child (m h k) = none := by
  induction p generalizing f with
  | nil => exact .inl ⟨f, rfl⟩
  | cons i p ih =>
    cases hchild : child (m f i) with
    | none => exact .inr ⟨[], i, p, f, rfl, rfl, hchild⟩
    | some g =>
      rcases ih g with ⟨h, hw⟩ | ⟨q, k, r, h, rfl, hw, hnone⟩
      · exact .inl ⟨h, by simp [walk, hchild, hw]⟩
      · exact .inr ⟨i :: q, k, r, h, rfl, by simp [walk, hchild, hw], hnone⟩

/-- Overwriting a word without link breaks no walk. -/
theorem walk_set_of_unused [DecidableEq φ] [DecidableEq ι] (hunused : child (m f i) = none)
    (w : ω) (hw : walk child m root p = some h) : walk child (m.set f i w) root p = some h := by
  induction p generalizing root with
  | nil => exact hw
  | cons k p ih =>
    obtain ⟨g, hchild, hw⟩ := Option.bind_eq_some_iff.mp hw
    refine Option.bind_eq_some_iff.mpr ⟨g, ?_, ih hw⟩
    rw [Store.set_apply, if_neg, hchild]
    rintro ⟨rfl, rfl⟩
    rw [hunused] at hchild
    cases hchild

/-- In a tree, tables at different depths are different. -/
theorem IsTree.ne_of_length_ne (ht : IsTree child m root d) (hp : p.length ≤ d)
    (hq : q.length ≤ d) (hf : walk child m root p = some f) (hg : walk child m root q = some g)
    (hne : p.length ≠ q.length) : f ≠ g := by
  rintro rfl
  exact hne (congrArg List.length (ht p q f hp hq hf hg))

end Walks

/-! ## Rewriting leaf tables -/

section Leaf

variable {child : ω → Option φ} {m m' : Store φ ι ω} {root t : φ} {p : List ι} {d : ℕ}

/-- Two stores agree on the tables above depth `d`. -/
def AgreeAbove (child : ω → Option φ) (m m' : Store φ ι ω) (root : φ) (d : ℕ) : Prop :=
  ∀ (p : List ι) (f : φ), p.length < d → walk child m root p = some f → m' f = m f

/-- In a tree, changing tables at depth `d` changes nothing above. -/
theorem IsTree.agreeAbove (ht : IsTree child m root d)
    (hm : ∀ f, m' f ≠ m f → ∃ q : List ι, q.length = d ∧ walk child m root q = some f) :
    AgreeAbove child m m' root d := by
  intro p f hp hw
  by_contra hne
  obtain ⟨q, hq, hwq⟩ := hm f hne
  exact ht.ne_of_length_ne hp.le hq.le hw hwq (by omega) rfl

/-- Walks of at most `d` steps do not read the tables at depth `d`. -/
theorem AgreeAbove.walk_eq (h : AgreeAbove child m m' root d) (hp : p.length ≤ d) :
    walk child m' root p = walk child m root p := by
  induction p using List.reverseRecOn with
  | nil => rfl
  | append_singleton p k ih =>
    rw [List.length_append, List.length_singleton] at hp
    rw [walk_snoc, walk_snoc, ih (by omega)]
    cases hw : walk child m root p with
    | none => rfl
    | some f => simp only [Option.bind_some, h p f (by omega) hw]

theorem AgreeAbove.isTree (h : AgreeAbove child m m' root d) (ht : IsTree child m root d) :
    IsTree child m' root d := by
  intro p q f hp hq hf hf'
  rw [h.walk_eq hp] at hf
  rw [h.walk_eq hq] at hf'
  exact ht p q f hp hq hf hf'

theorem AgreeAbove.tables_eq (h : AgreeAbove child m m' root d) :
    tables child m' root d = tables child m root d := by
  ext f
  constructor
  · rintro ⟨p, hp, hw⟩
    exact ⟨p, hp, h.walk_eq hp ▸ hw⟩
  · rintro ⟨p, hp, hw⟩
    exact ⟨p, hp, (h.walk_eq hp).trans hw⟩

/-- A full path sees a change only when the word it ends on changed. -/
theorem AgreeAbove.stop_eq (h : AgreeAbove child m m' root d) (hp : p.length = d) {j : ι}
    (hleaf : ∀ t, walk child m root p = some t → m' t j = m t j) :
    stop child m' root p j = stop child m root p j := by
  rcases walk_or_stuck child m root p with ⟨t, hw⟩ | ⟨q, k, r, f, rfl, hw, hnone⟩
  · rw [stop_of_walk hw, stop_of_walk ((h.walk_eq hp.le).trans hw), hleaf t hw]
  · -- the walk ends above the leaf tables
    have hlen : q.length < d := by
      rw [← hp, List.length_append, List.length_cons]
      omega
    have hsame : m' f k = m f k := congrFun (h q f hlen hw) k
    rw [stop_of_stuck hw hnone, stop_of_stuck ((h.walk_eq hlen.le).trans hw) (hsame ▸ hnone),
      hsame]

end Leaf

/-! ## Cutting links -/

section Prune

variable {child : ω → Option φ} {m m' : Store φ ι ω} {root f g : φ} {p : List ι} {d : ℕ}

/-- Every word of `m'` is that of `m`, or no link. -/
def Prunes (child : ω → Option φ) (m m' : Store φ ι ω) : Prop :=
  ∀ f i, m' f i = m f i ∨ child (m' f i) = none

theorem Prunes.walk_of_walk (h : Prunes child m m') (hw : walk child m' f p = some g) :
    walk child m f p = some g := by
  induction p generalizing f with
  | nil => exact hw
  | cons i p ih =>
    obtain ⟨t, hchild, hw⟩ := Option.bind_eq_some_iff.mp hw
    refine Option.bind_eq_some_iff.mpr ⟨t, ?_, ih hw⟩
    rcases h f i with hsame | hnone
    · rw [← hsame, hchild]
    · rw [hnone] at hchild
      cases hchild

theorem Prunes.isTree (h : Prunes child m m') (ht : IsTree child m root d) :
    IsTree child m' root d :=
  fun p q f hp hq hf hf' => ht p q f hp hq (h.walk_of_walk hf) (h.walk_of_walk hf')

theorem Prunes.tables_subset (h : Prunes child m m') :
    tables child m' root d ⊆ tables child m root d := by
  rintro f ⟨p, hp, hw⟩
  exact ⟨p, hp, h.walk_of_walk hw⟩

theorem walk_of_words_eq (hw : walk child m f p = some g)
    (h : ∀ q k t, q ++ [k] <+: p → walk child m f q = some t → m' t k = m t k) :
    walk child m' f p = some g := by
  induction p generalizing f with
  | nil => exact hw
  | cons i p ih =>
    obtain ⟨t, hchild, hw⟩ := Option.bind_eq_some_iff.mp hw
    have hfirst : m' f i = m f i := h [] i f (List.cons_prefix_cons.mpr ⟨rfl, List.nil_prefix⟩) rfl
    refine Option.bind_eq_some_iff.mpr ⟨t, hfirst ▸ hchild, ih hw fun q k t' hq ht' => ?_⟩
    exact h (i :: q) k t' (List.cons_prefix_cons.mpr ⟨rfl, hq⟩)
      (Option.bind_eq_some_iff.mpr ⟨t, hchild, ht'⟩)

end Prune

/-! ## Linking a fresh table -/

section Link

variable {child : ω → Option φ}

/-- The situation in which a mapper adds a table: `f` is a table above the leaves, its word `i`
is no link, `w` links to the fresh table `g`, and `z` is the word of empty tables. -/
structure LinkSite (child : ω → Option φ) (m : Store φ ι ω) (root : φ) (d : ℕ) (p₀ : List ι)
    (f : φ) (i : ι) (w : ω) (g : φ) (z : ω) : Prop where
  depth : p₀.length < d
  at_path : walk child m root p₀ = some f
  unused : child (m f i) = none
  fresh : g ∉ tables child m root d
  points : child w = some g
  empty : child z = none

variable {m : Store φ ι ω} {root f g : φ} {i : ι} {w z : ω} {p₀ : List ι} {d : ℕ}

theorem LinkSite.ne_fresh (hs : LinkSite child m root d p₀ f i w g z) {p : List ι} {h : φ}
    (hp : p.length ≤ d) (hw : walk child m root p = some h) : h ≠ g := by
  rintro rfl
  exact hs.fresh ⟨p, hp, hw⟩

variable [DecidableEq φ] [DecidableEq ι]

/-- The store with the fresh table linked and cleared. -/
def link (m : Store φ ι ω) (f : φ) (i : ι) (w : ω) (g : φ) (z : ω) : Store φ ι ω :=
  (m.set f i w).fill g z

theorem link_apply_of_ne {h : φ} (hne : h ≠ g) (k : ι) :
    link m f i w g z h k = if h = f ∧ k = i then w else m h k := by
  rw [link, Store.fill_of_ne _ _ hne, Store.set_apply]

namespace LinkSite

variable (hs : LinkSite child m root d p₀ f i w g z)
include hs

/-- No walk is lost. -/
theorem walk_of_walk {p : List ι} {h : φ} (hp : p.length ≤ d) (hw : walk child m root p = some h) :
    walk child (link m f i w g z) root p = some h := by
  induction p using List.reverseRecOn generalizing h with
  | nil => exact hw
  | append_singleton p k ih =>
    rw [List.length_append, List.length_singleton] at hp
    obtain ⟨h₁, hw₁, hchild⟩ := walk_snoc_eq_some.mp hw
    refine walk_snoc_eq_some.mpr ⟨h₁, ih (by omega) hw₁, ?_⟩
    rw [link_apply_of_ne (hs.ne_fresh (by omega) hw₁), if_neg, hchild]
    rintro ⟨rfl, rfl⟩
    rw [hs.unused] at hchild
    cases hchild

/-- The only new walk is the one to the fresh table. -/
theorem walk_inv (ht : IsTree child m root d) {p : List ι} {h : φ} (hp : p.length ≤ d)
    (hw : walk child (link m f i w g z) root p = some h) :
    walk child m root p = some h ∨ (p = p₀ ++ [i] ∧ h = g) := by
  induction p using List.reverseRecOn generalizing h with
  | nil => exact .inl hw
  | append_singleton p k ih =>
    rw [List.length_append, List.length_singleton] at hp
    obtain ⟨h₁, hw₁, hchild⟩ := walk_snoc_eq_some.mp hw
    -- up to its last step the walk is an old one, or it has reached the fresh table
    rcases ih (by omega) hw₁ with hold | ⟨rfl, rfl⟩
    · rw [link_apply_of_ne (hs.ne_fresh (by omega) hold)] at hchild
      split_ifs at hchild with heq
      · obtain ⟨rfl, rfl⟩ := heq
        have hpath := ht p p₀ h₁ (by omega) hs.depth.le hold hs.at_path
        rw [hs.points, Option.some.injEq] at hchild
        exact .inr ⟨by rw [hpath], hchild.symm⟩
      · exact .inl (walk_snoc_eq_some.mpr ⟨h₁, hold, hchild⟩)
    · -- nothing lies below the fresh table
      rw [link, Store.fill_self, hs.empty] at hchild
      cases hchild

theorem walk_fresh : walk child (link m f i w g z) root (p₀ ++ [i]) = some g := by
  refine walk_snoc_eq_some.mpr ⟨f, hs.walk_of_walk hs.depth.le hs.at_path, ?_⟩
  rw [link_apply_of_ne (hs.ne_fresh hs.depth.le hs.at_path), if_pos ⟨rfl, rfl⟩, hs.points]

/-- **The tree stays a tree.** A walk in the new store is one of the old store, or it is the one
walk to the fresh table. -/
theorem isTree (ht : IsTree child m root d) : IsTree child (link m f i w g z) root d := by
  intro p q h hp hq hwp hwq
  rcases hs.walk_inv ht hp hwp with hp₁ | ⟨rfl, rfl⟩
  · rcases hs.walk_inv ht hq hwq with hq₁ | ⟨rfl, rfl⟩
    · exact ht p q h hp hq hp₁ hq₁
    · exact absurd rfl (hs.ne_fresh hp hp₁)
  · rcases hs.walk_inv ht hq hwq with hq₁ | ⟨rfl, -⟩
    · exact absurd rfl (hs.ne_fresh hq hq₁)
    · rfl

theorem tables_eq (ht : IsTree child m root d) :
    tables child (link m f i w g z) root d =
      insert g (tables child m root d) := by
  ext h
  constructor
  · rintro ⟨p, hp, hw⟩
    rcases hs.walk_inv ht hp hw with hold | ⟨-, rfl⟩
    · exact .inr ⟨p, hp, hold⟩
    · exact .inl rfl
  · rintro (rfl | ⟨p, hp, hw⟩)
    · exact ⟨p₀ ++ [i], by rw [List.length_append, List.length_singleton]; exact hs.depth,
        hs.walk_fresh⟩
    · exact ⟨p, hp, hs.walk_of_walk hp hw⟩

/-- Every full path ends on the word it ended on before, or it ended on the unused word and now
ends in the fresh table. -/
theorem stop_eq_or (ht : IsTree child m root d) {p : List ι} (hp : p.length = d) (j : ι) :
    stop child (link m f i w g z) root p j = stop child m root p j ∨
      (stop child m root p j).1 = m f i ∧
        (stop child (link m f i w g z) root p j).1 = z := by
  -- a full walk never used the word; one that got stuck may have been stuck at it
  rcases walk_or_stuck child m root p with ⟨h, hw⟩ | ⟨q, k, r, h, rfl, hw, hnone⟩
  · left
    have hne : h ≠ f := ht.ne_of_length_ne hp.le hs.depth.le hw hs.at_path (by
      have := hs.depth
      omega)
    rw [stop_of_walk hw, stop_of_walk (hs.walk_of_walk hp.le hw),
      link_apply_of_ne (hs.ne_fresh hp.le hw), if_neg (fun h => hne h.1)]
  · have hlen : q.length < d := by
      rw [← hp, List.length_append, List.length_cons]
      omega
    have hw' := hs.walk_of_walk hlen.le hw
    have happly := link_apply_of_ne (m := m) (f := f) (i := i) (w := w) (z := z)
      (hs.ne_fresh hlen.le hw) k
    by_cases heq : h = f ∧ k = i
    · right
      obtain ⟨rfl, rfl⟩ := heq
      have hpath := ht q p₀ h hlen.le hs.depth.le hw hs.at_path
      subst hpath
      refine ⟨by rw [stop_of_stuck hw hnone], ?_⟩
      have hfresh := hs.walk_fresh
      -- the walk now enters the fresh table and finds nothing there
      cases r with
      | nil => rw [stop_of_walk hfresh, link, Store.fill_self]
      | cons k' r =>
        have hsplit : q ++ k :: k' :: r = (q ++ [k]) ++ k' :: r := by simp
        rw [hsplit, stop_of_stuck hfresh (by rw [link, Store.fill_self, hs.empty]), link,
          Store.fill_self]
    · left
      rw [if_neg heq] at happly
      rw [stop_of_stuck hw hnone, stop_of_stuck hw' (by rw [happly, hnone]), happly]

end LinkSite

end Link

end HeliumOS.Lib.Radix
