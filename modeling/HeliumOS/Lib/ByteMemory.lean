import Mathlib.Tactic.Common
import Mathlib.Algebra.Order.Ring.Nat
import Mathlib.Data.List.GetD

/-!
# Memory of Bytes

A memory maps addresses to bytes.  `slice` reads a range, `write` replaces one, and numbers of any
width are stored with their lowest byte first.

- `slice_eq_append` takes a range apart; with it a structure is read field by field.
- `load_store_self` and `load_store_of_apart` are the two rules of a memory of words.
- `words` reads an array of words; `words_store` and `words_congr` are its two rules.
-/

namespace HeliumOS.Lib

/-- A memory, by address. -/
abbrev ByteMemory := ℕ → BitVec 8

/-! ## Numbers as bytes -/

/-- The number with the given bytes, the lowest one first. -/
def leNat : List (BitVec 8) → ℕ
  | [] => 0
  | b :: bs => b.toNat + 256 * leNat bs

/-- The lowest `n` bytes of a number. -/
def leBytes : ℕ → ℕ → List (BitVec 8)
  | 0, _ => []
  | n + 1, v => BitVec.ofNat 8 v :: leBytes n (v / 256)

@[simp] theorem length_leBytes (n v : ℕ) : (leBytes n v).length = n := by
  induction n generalizing v with
  | zero => rfl
  | succ n ih => rw [leBytes, List.length_cons, ih]

theorem leNat_leBytes (n v : ℕ) : leNat (leBytes n v) = v % 256 ^ n := by
  induction n generalizing v with
  | zero => simp [leBytes, leNat, Nat.mod_one]
  | succ n ih =>
    have hbyte : (BitVec.ofNat 8 v).toNat = v % 256 := BitVec.toNat_ofNat v 8
    rw [leBytes, leNat, ih, hbyte, Nat.pow_succ', Nat.mod_mul]

theorem leNat_lt (bs : List (BitVec 8)) : leNat bs < 256 ^ bs.length := by
  induction bs with
  | nil => decide
  | cons b bs ih =>
    have hb := b.isLt
    rw [leNat, List.length_cons, Nat.pow_succ]
    omega

/-- The bytes of a word. -/
def wordBytes {w : ℕ} (v : BitVec w) : List (BitVec 8) := leBytes (w / 8) v.toNat

@[simp] theorem length_wordBytes {w : ℕ} (v : BitVec w) : (wordBytes v).length = w / 8 :=
  length_leBytes _ _

theorem ofNat_leNat_wordBytes {w : ℕ} (hw : 8 ∣ w) (v : BitVec w) :
    BitVec.ofNat w (leNat (wordBytes v)) = v := by
  have hpow : 256 ^ (w / 8) = 2 ^ w := by
    rw [show 256 = 2 ^ 8 from rfl, ← Nat.pow_mul, Nat.mul_div_cancel' hw]
  rw [wordBytes, leNat_leBytes, hpow, Nat.mod_eq_of_lt v.isLt, BitVec.ofNat_toNat,
    BitVec.setWidth_eq]

/-! ## Ranges -/

namespace ByteMemory

variable {m : ByteMemory} {a b n k : ℕ} {bs x y : List (BitVec 8)}

/-- The `n` bytes from an address on. -/
def slice (m : ByteMemory) (a n : ℕ) : List (BitVec 8) := (List.range n).map fun k => m (a + k)

/-- Replace the bytes from an address on. -/
def write (m : ByteMemory) (a : ℕ) (bs : List (BitVec 8)) : ByteMemory :=
  fun x => if a ≤ x then bs.getD (x - a) (m x) else m x

@[simp] theorem length_slice : (m.slice a n).length = n := by simp [slice]

theorem getElem?_slice (hk : k < n) : (m.slice a n)[k]? = some (m (a + k)) := by
  simp [slice, hk]

theorem slice_add : m.slice a (n + k) = m.slice a n ++ m.slice (a + n) k := by
  simp only [slice, List.range_add, List.map_append, List.map_map]
  congr 1
  refine List.map_congr_left fun i _ => ?_
  rw [Function.comp_apply, Nat.add_assoc]

/-- A range that holds two lists, one behind the other. -/
theorem slice_eq_append : m.slice a (x ++ y).length = x ++ y ↔
    m.slice a x.length = x ∧ m.slice (a + x.length) y.length = y := by
  rw [List.length_append, slice_add]
  constructor
  · intro h
    exact List.append_inj h length_slice
  · rintro ⟨hx, hy⟩
    rw [hx, hy]

theorem slice_congr {m' : ByteMemory} (h : ∀ i, a ≤ i → i < a + n → m' i = m i) :
    m'.slice a n = m.slice a n := by
  refine List.map_congr_left fun i hi => h _ (Nat.le_add_right a i) ?_
  rw [List.mem_range] at hi
  omega

theorem write_of_lt {i : ℕ} (h : i < a) : m.write a bs i = m i := if_neg (Nat.not_le.mpr h)

theorem write_of_le {i : ℕ} (h : a + bs.length ≤ i) : m.write a bs i = m i := by
  rw [write, if_pos (by omega), List.getD_eq_default _ _ (by omega)]

theorem slice_write_self : (m.write a bs).slice a bs.length = bs := by
  apply List.ext_getElem?
  intro i
  by_cases hi : i < bs.length
  · rw [getElem?_slice hi, write, if_pos (Nat.le_add_right a i), Nat.add_sub_cancel_left,
      List.getD_eq_getElem _ _ hi, List.getElem?_eq_getElem hi]
  · rw [List.getElem?_eq_none (by simpa using hi), List.getElem?_eq_none (by simpa using hi)]

/-- A write elsewhere. -/
theorem slice_write_of_apart (h : a + bs.length ≤ b ∨ b + n ≤ a) :
    (m.write a bs).slice b n = m.slice b n := by
  refine slice_congr fun i hi hi' => ?_
  rcases h with h | h
  · exact write_of_le (by omega)
  · exact write_of_lt (by omega)

/-! ## Words -/

variable {w : ℕ}

/-- The word of `w` bits at an address. -/
def load (w : ℕ) (m : ByteMemory) (a : ℕ) : BitVec w := BitVec.ofNat w (leNat (m.slice a (w / 8)))

/-- Store a word. -/
def store (m : ByteMemory) (a : ℕ) (v : BitVec w) : ByteMemory := m.write a (wordBytes v)

/-- A word that is in memory is read. -/
theorem load_of_slice {v : BitVec w} (hw : 8 ∣ w)
    (h : m.slice a (wordBytes v).length = wordBytes v) :
    m.load w a = v := by
  rw [length_wordBytes] at h
  rw [load, h, ofNat_leNat_wordBytes hw]

/-- The first field of a packed structure, and what follows it. -/
theorem load_of_append {v : BitVec w} (hw : 8 ∣ w)
    (h : m.slice a (wordBytes v ++ y).length = wordBytes v ++ y) :
    m.load w a = v ∧ m.slice (a + w / 8) y.length = y := by
  obtain ⟨hword, hrest⟩ := slice_eq_append.mp h
  rw [length_wordBytes] at hrest
  exact ⟨load_of_slice hw hword, hrest⟩

/-- A word that was stored is loaded again. -/
theorem load_store_self (hw : 8 ∣ w) (v : BitVec w) : (m.store a v).load w a = v :=
  load_of_slice hw slice_write_self

/-- A store leaves the words alone that it does not overlap, whatever their width. -/
theorem load_store_of_apart {v : BitVec w} {w' : ℕ} (h : a + w / 8 ≤ b ∨ b + w' / 8 ≤ a) :
    (m.store a v).load w' b = m.load w' b := by
  rw [load, load, store, slice_write_of_apart (by rwa [length_wordBytes])]

theorem store_of_apart {v : BitVec w} {i : ℕ} (h : i < a ∨ a + w / 8 ≤ i) :
    m.store a v i = m i := by
  rcases h with h | h
  · exact write_of_lt h
  · exact write_of_le (by rwa [length_wordBytes])

/-- Words at two addresses with the same bytes. -/
theorem load_congr {m' : ByteMemory} (h : ∀ i < w / 8, m' (b + i) = m (a + i)) :
    m'.load w b = m.load w a := by
  have hslice : m'.slice b (w / 8) = m.slice a (w / 8) :=
    List.map_congr_left fun i hi => h i (List.mem_range.mp hi)
  rw [load, load, hslice]

/-! ## Arrays of words -/

/-- The `n` words from an address on. -/
def words (w : ℕ) (m : ByteMemory) (a n : ℕ) : List (BitVec w) :=
  (List.range n).map fun k => m.load w (a + w / 8 * k)

@[simp] theorem length_words : (m.words w a n).length = n := by simp [words]

theorem getD_words {d : BitVec w} (hk : k < n) :
    (m.words w a n).getD k d = m.load w (a + w / 8 * k) := by
  simp [words, hk]

/-- Where word `k` of an array ends. -/
theorem mul_add_lt_of_lt {i : ℕ} (hk : k < n) (hi : i < w / 8) : w / 8 * k + i < w / 8 * n :=
  calc w / 8 * k + i < w / 8 * k + w / 8 := Nat.add_lt_add_left hi _
    _ = w / 8 * (k + 1) := (Nat.mul_succ _ _).symm
    _ ≤ w / 8 * n := Nat.mul_le_mul_left _ hk

/-- An array depends on its own bytes only. -/
theorem words_congr {m' : ByteMemory} (h : ∀ i < w / 8 * n, m' (b + i) = m (a + i)) :
    m'.words w b n = m.words w a n := by
  refine List.map_congr_left fun k hk => load_congr fun i hi => ?_
  rw [Nat.add_assoc, Nat.add_assoc]
  exact h _ (mul_add_lt_of_lt (List.mem_range.mp hk) hi)

/-- Storing one of the words. -/
theorem words_store (hw : 8 ∣ w) (v : BitVec w) :
    (m.store (a + w / 8 * k) v).words w a n = (m.words w a n).set k v := by
  refine List.ext_getElem (by simp) fun i hi hi' => ?_
  rw [List.getElem_set]
  simp only [words, List.getElem_map, List.getElem_range]
  split_ifs with heq
  · subst heq
    exact load_store_self hw v
  · refine load_store_of_apart ?_
    rcases Nat.lt_or_gt_of_ne heq with hlt | hlt
    · have hle : w / 8 * (k + 1) ≤ w / 8 * i := Nat.mul_le_mul_left _ hlt
      rw [Nat.mul_succ] at hle
      omega
    · have hle : w / 8 * (i + 1) ≤ w / 8 * k := Nat.mul_le_mul_left _ hlt
      rw [Nat.mul_succ] at hle
      omega

theorem leNat_replicate_zero (n : ℕ) : leNat (List.replicate n 0) = 0 := by
  induction n with
  | zero => rfl
  | succ n ih =>
    rw [List.replicate_succ, leNat, ih]
    rfl

/-- Filling an array with zeros. -/
theorem words_write_zero :
    (m.write a (List.replicate (w / 8 * n) 0)).words w a n = List.replicate n 0 := by
  refine List.eq_replicate_iff.mpr ⟨length_words, ?_⟩
  simp only [words, List.forall_mem_map, List.mem_range]
  intro k hk
  have hslice : (m.write a (List.replicate (w / 8 * n) 0)).slice (a + w / 8 * k) (w / 8) =
      List.replicate (w / 8) 0 := by
    refine List.eq_replicate_iff.mpr ⟨length_slice, ?_⟩
    simp only [slice, List.forall_mem_map, List.mem_range]
    intro i hi
    have hlt := mul_add_lt_of_lt hk hi
    rw [write, if_pos (by omega), List.getD_replicate _ (by omega)]
  rw [load, hslice, leNat_replicate_zero]
  rfl

end ByteMemory

end HeliumOS.Lib
