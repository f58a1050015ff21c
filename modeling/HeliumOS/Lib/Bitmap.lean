import Mathlib.Tactic.Common
import Mathlib.Algebra.Order.Ring.Nat
import Mathlib.Data.Finset.Card
import Mathlib.Order.Bounds.Defs

/-!
# Bitmaps of Machine Words

A bitmap is a list of `n`-bit words; bit `k` of the bitmap is bit `k % n` of word `k / n`.
The operations are the ones an allocator needs: find a word with a clear bit, find the
lowest clear bit of a word, set one bit, clear one bit.  Each is characterised by its effect
on `bit`, so that a client never looks inside a word.
-/

namespace HeliumOS.Lib.Bitmap

variable {n : ℕ}

/-! ## Words -/

/-- Number of consecutive ones from the least significant bit. -/
def trailingOnes (w : BitVec n) : ℕ := (~~~w).ctz.toNat

/-- `w | (1 << i)`. -/
def setBit (w : BitVec n) (i : ℕ) : BitVec n := w ||| (1#n <<< i)

/-- `w & !(1 << i)`. -/
def clearBit (w : BitVec n) (i : ℕ) : BitVec n := w &&& ~~~(1#n <<< i)

private theorem not_ne_zero {w : BitVec n} (h : w ≠ BitVec.allOnes n) : ~~~w ≠ 0#n := by
  intro hzero
  apply h
  rw [← BitVec.not_not (b := w), hzero]
  simp

theorem trailingOnes_lt {w : BitVec n} (h : w ≠ BitVec.allOnes n) : trailingOnes w < n := by
  have hlt : (~~~w).ctz < BitVec.ofNat n n := BitVec.ctz_lt_iff_ne_zero.mpr (not_ne_zero h)
  have hn : n < 2 ^ n := Nat.lt_two_pow_self
  simpa [trailingOnes, BitVec.lt_def, Nat.mod_eq_of_lt hn] using hlt

/-- The bit after the trailing ones is clear. -/
theorem getLsbD_trailingOnes {w : BitVec n} (h : w ≠ BitVec.allOnes n) :
    w.getLsbD (trailingOnes w) = false := by
  have hone := BitVec.getLsbD_true_ctz_of_ne_zero (not_ne_zero h)
  rw [BitVec.getLsbD_not, Bool.and_eq_true, Bool.not_eq_true'] at hone
  exact hone.2

/-- The bits below it are set. -/
theorem getLsbD_of_lt_trailingOnes {w : BitVec n} {j : ℕ} (hj : j < trailingOnes w) (hn : j < n) :
    w.getLsbD j = true := by
  have hzero := BitVec.getLsbD_false_of_lt_ctz hj
  simpa [hn] using hzero

theorem getLsbD_setBit {w : BitVec n} {i : ℕ} (hi : i < n) (j : ℕ) :
    (setBit w i).getLsbD j = (decide (j = i) || w.getLsbD j) := by
  by_cases hj : j < n
  · by_cases hji : j = i
    · simp [setBit, hji, hi]
    · simp only [setBit, BitVec.getLsbD_or, BitVec.getLsbD_shiftLeft, BitVec.getLsbD_one, hji]
      grind
  · have hji : j ≠ i := by omega
    rw [BitVec.getLsbD_of_ge _ j (Nat.le_of_not_lt hj), BitVec.getLsbD_of_ge w j
      (Nat.le_of_not_lt hj)]
    simp [hji]

theorem getLsbD_clearBit {w : BitVec n} {i : ℕ} (hi : i < n) (j : ℕ) :
    (clearBit w i).getLsbD j = (!decide (j = i) && w.getLsbD j) := by
  by_cases hj : j < n
  · by_cases hji : j = i
    · simp [clearBit, hji, hi]
    · simp only [clearBit, BitVec.getLsbD_and, BitVec.getLsbD_not, BitVec.getLsbD_shiftLeft,
        BitVec.getLsbD_one, hji]
      grind
  · rw [BitVec.getLsbD_of_ge _ j (Nat.le_of_not_lt hj), BitVec.getLsbD_of_ge w j
      (Nat.le_of_not_lt hj)]
    simp

/-- Bit `k` of a list of words. -/
def bit (ws : List (BitVec n)) (k : ℕ) : Bool := (ws.getD (k / n) 0#n).getLsbD (k % n)

/-- Position of bit `b` of word `i`. -/
theorem eq_mul_add_iff {i b k : ℕ} (hb : b < n) : k = n * i + b ↔ k / n = i ∧ k % n = b := by
  have hn : 0 < n := by omega
  constructor
  · rintro rfl
    exact ⟨by rw [Nat.mul_add_div hn, Nat.div_eq_of_lt hb, Nat.add_zero],
      by rw [Nat.mul_add_mod, Nat.mod_eq_of_lt hb]⟩
  · rintro ⟨rfl, rfl⟩
    exact (Nat.div_add_mod k n).symm

theorem div_lt_length {ws : List (BitVec n)} {k : ℕ} (hk : k < n * ws.length) :
    k / n < ws.length := Nat.div_lt_of_lt_mul hk

theorem bit_mul_add {ws : List (BitVec n)} {i b : ℕ} (hi : i < ws.length) (hb : b < n) :
    bit ws (n * i + b) = (ws[i]).getLsbD b := by
  obtain ⟨hdiv, hmod⟩ := (eq_mul_add_iff (i := i) (k := n * i + b) hb).mp rfl
  simp [bit, hdiv, hmod, hi]

/-- Bitmaps of the same length with the same bits. -/
theorem ext {ws ws' : List (BitVec n)} (hlen : ws.length = ws'.length)
    (h : ∀ k < n * ws.length, bit ws k = bit ws' k) : ws = ws' := by
  refine List.ext_getElem hlen fun i hi hi' => BitVec.eq_of_getLsbD_eq fun b hb => ?_
  have hlt : n * i + b < n * ws.length := by
    have hsucc : n * (i + 1) ≤ n * ws.length := Nat.mul_le_mul_left n hi
    rw [Nat.mul_succ] at hsucc
    omega
  rw [← bit_mul_add hi hb, ← bit_mul_add hi' hb]
  exact h _ hlt

/-- Replacing word `i` changes only the bits of that word. -/
theorem bit_set {ws : List (BitVec n)} {i : ℕ} (hi : i < ws.length) (w : BitVec n) (k : ℕ) :
    bit (ws.set i w) k = if k / n = i then w.getLsbD (k % n) else bit ws k := by
  unfold bit
  split_ifs with h
  · subst h
    simp [hi]
  · simp [List.getD_eq_getElem?_getD, List.getElem?_set_ne (Ne.symm h)]

@[simp] theorem bit_replicate_zero (len k : ℕ) : bit (List.replicate len 0#n) k = false := by
  simp only [bit, List.getD_eq_getElem?_getD, List.getElem?_replicate]
  split_ifs <;> simp

theorem bit_set_setBit {ws : List (BitVec n)} {i b : ℕ} (hi : i < ws.length) (hb : b < n)
    (k : ℕ) : bit (ws.set i (setBit ws[i] b)) k = (decide (k = n * i + b) || bit ws k) := by
  rw [bit_set hi, getLsbD_setBit hb]
  by_cases h : k / n = i
  · subst h
    simp [eq_mul_add_iff hb, bit, hi]
  · simp [eq_mul_add_iff hb, h]

theorem bit_set_clearBit {ws : List (BitVec n)} {i b : ℕ} (hi : i < ws.length) (hb : b < n)
    (k : ℕ) : bit (ws.set i (clearBit ws[i] b)) k = (!decide (k = n * i + b) && bit ws k) := by
  rw [bit_set hi, getLsbD_clearBit hb]
  by_cases h : k / n = i
  · subst h
    simp [eq_mul_add_iff hb, bit, hi]
  · simp [eq_mul_add_iff hb, h]

/-- Index of the first word that has a clear bit. -/
def firstNotFull (ws : List (BitVec n)) : Option ℕ :=
  ws.findIdx? (fun w => decide (w ≠ BitVec.allOnes n))

theorem firstNotFull_eq_some {ws : List (BitVec n)} {i : ℕ} (h : firstNotFull ws = some i) :
    ∃ hi : i < ws.length, ws[i] ≠ BitVec.allOnes n := by
  obtain ⟨hi, hp, -⟩ := List.findIdx?_eq_some_iff_getElem.mp h
  exact ⟨hi, by simpa using hp⟩

/-- When no word has a clear bit, every bit of the bitmap is set. -/
theorem bit_of_firstNotFull_eq_none {ws : List (BitVec n)} (h : firstNotFull ws = none)
    {k : ℕ} (hk : k < n * ws.length) : bit ws k = true := by
  have hn : 0 < n := Nat.pos_of_ne_zero (by rintro rfl; simp at hk)
  have hi : k / n < ws.length := div_lt_length hk
  have hfull : ws[k / n] = BitVec.allOnes n := by
    simpa using List.findIdx?_eq_none_iff.mp h ws[k / n] (List.getElem_mem hi)
  simp [bit, hi, hfull, Nat.mod_lt k hn]

/-! ## Counting -/

/-- The positions of the clear bits. -/
def clearBits (ws : List (BitVec n)) : Finset ℕ :=
  (Finset.range (n * ws.length)).filter fun k => bit ws k = false

theorem mem_clearBits {ws : List (BitVec n)} {k : ℕ} :
    k ∈ clearBits ws ↔ k < n * ws.length ∧ bit ws k = false := by
  rw [clearBits, Finset.mem_filter, Finset.mem_range]

theorem clearBits_set_setBit {ws : List (BitVec n)} {i b : ℕ} (hi : i < ws.length) (hb : b < n) :
    clearBits (ws.set i (setBit ws[i] b)) = (clearBits ws).erase (n * i + b) := by
  ext k
  rw [mem_clearBits, bit_set_setBit hi hb, List.length_set, Finset.mem_erase, mem_clearBits]
  by_cases hk : k = n * i + b
  · simp [hk]
  · simp [hk]

theorem clearBits_of_firstNotFull_eq_none {ws : List (BitVec n)} (h : firstNotFull ws = none) :
    clearBits ws = ∅ := by
  refine Finset.eq_empty_of_forall_notMem fun k hk => ?_
  obtain ⟨hlt, hclear⟩ := mem_clearBits.mp hk
  rw [bit_of_firstNotFull_eq_none h hlt] at hclear
  cases hclear

/-- All words before the one that is found are full. -/
theorem eq_allOnes_of_firstNotFull {ws : List (BitVec n)} {i j : ℕ} (h : firstNotFull ws = some i)
    (hj : j < i) (hlen : j < ws.length) : ws[j] = BitVec.allOnes n := by
  obtain ⟨_, _, hbefore⟩ := List.findIdx?_eq_some_iff_getElem.mp h
  simpa using hbefore j hj

/-- The bit that is found is one of the clear bits. -/
theorem mem_clearBits_of_firstNotFull {ws : List (BitVec n)} {i : ℕ} (hi : i < ws.length)
    (hfull : ws[i] ≠ BitVec.allOnes n) : n * i + trailingOnes ws[i] ∈ clearBits ws := by
  have hb : trailingOnes ws[i] < n := trailingOnes_lt hfull
  refine mem_clearBits.mpr ⟨?_, ?_⟩
  · have hsucc : n * (i + 1) ≤ n * ws.length := Nat.mul_le_mul_left n hi
    rw [Nat.mul_succ] at hsucc
    omega
  · rw [bit_mul_add hi hb]
    exact getLsbD_trailingOnes hfull

/-- The bit that is found is the lowest one. -/
theorem isLeast_of_firstNotFull {ws : List (BitVec n)} {i : ℕ} (h : firstNotFull ws = some i)
    (hi : i < ws.length) (hfull : ws[i] ≠ BitVec.allOnes n) :
    IsLeast (clearBits ws : Set ℕ) (n * i + trailingOnes ws[i]) := by
  refine ⟨mem_clearBits_of_firstNotFull hi hfull, fun k hk => ?_⟩
  obtain ⟨hlt, hclear⟩ := mem_clearBits.mp hk
  have hlen := div_lt_length hlt
  have hn : k % n < n := Nat.mod_lt k (Nat.pos_of_ne_zero (by rintro rfl; simp at hlt))
  have hsplit := Nat.div_add_mod k n
  have hget : (ws[k / n]).getLsbD (k % n) = false := by simpa [bit, hlen] using hclear
  rcases lt_trichotomy (k / n) i with hword | rfl | hword
  · -- the words before the one that is found are full
    rw [eq_allOnes_of_firstNotFull h hword hlen] at hget
    simp [hn] at hget
  · by_contra hbelow
    rw [getLsbD_of_lt_trailingOnes (show k % n < _ by omega) hn] at hget
    cases hget
  · have hsucc : n * (i + 1) ≤ n * (k / n) := Nat.mul_le_mul_left n hword
    have hb := trailingOnes_lt hfull
    rw [Nat.mul_succ] at hsucc
    omega

end HeliumOS.Lib.Bitmap
