import HeliumOS.Mem.Address

/-!
# Page Table Entries

`PageTableEntry` and `PageTableFlags` of the `x86_64` crate.  An entry is a raw 64-bit word:
bits 12 to 51 are a frame number and every other bit is a flag.
-/

namespace HeliumOS.Mem

open HeliumOS.Lib

/-- The bits of an entry that hold the frame number. -/
def addrMask : BitVec 64 := 0x000ffffffffff000

theorem getLsbD_addrMask {i : ℕ} (hi : i < 64) :
    addrMask.getLsbD i = decide (12 ≤ i ∧ i < 52) := by
  revert i
  decide

/-! ## Flags -/

/-- `PageTableFlags`: a word without address bits. -/
@[ext] structure PageTableFlags where
  bits : BitVec 64
  noAddr : bits &&& addrMask = 0
  deriving DecidableEq

namespace PageTableFlags

def PRESENT : PageTableFlags := ⟨0x1, by decide⟩
def WRITABLE : PageTableFlags := ⟨0x2, by decide⟩
def USER_ACCESSIBLE : PageTableFlags := ⟨0x4, by decide⟩
def HUGE_PAGE : PageTableFlags := ⟨0x80, by decide⟩
def GLOBAL : PageTableFlags := ⟨0x100, by decide⟩

def empty : PageTableFlags := ⟨0, by decide⟩

/-- `flags.contains(other)`. -/
def contains (a b : PageTableFlags) : Bool := a.bits &&& b.bits == b.bits

/-- `flags | other`. -/
instance : OrOp PageTableFlags where
  or a b := ⟨a.bits ||| b.bits, by
    rw [BitVec.and_comm, BitVec.and_or_distrib_left, BitVec.and_comm, a.noAddr, BitVec.and_comm,
      b.noAddr, BitVec.or_self]⟩

/-- `flags.remove(other)`, or `flags & !other`. -/
def remove (a b : PageTableFlags) : PageTableFlags :=
  ⟨a.bits &&& ~~~b.bits, by
    rw [BitVec.and_assoc, BitVec.and_comm (~~~b.bits), ← BitVec.and_assoc, a.noAddr]
    exact BitVec.zero_and⟩

theorem getLsbD_eq_false (a : PageTableFlags) {i : ℕ} (hi : 12 ≤ i ∧ i < 52) :
    a.bits.getLsbD i = false := by
  have hbit := congrArg (·.getLsbD i) a.noAddr
  simpa [getLsbD_addrMask (show i < 64 by omega), hi] using hbit

@[simp] theorem or_bits (a b : PageTableFlags) : (a ||| b).bits = a.bits ||| b.bits := rfl

theorem contains_iff {a b : PageTableFlags} :
    a.contains b = true ↔ ∀ i, b.bits.getLsbD i = true → a.bits.getLsbD i = true := by
  rw [contains, beq_iff_eq]
  constructor
  · intro h i hi
    rw [← h, BitVec.getLsbD_and, Bool.and_eq_true] at hi
    exact hi.1
  · intro h
    apply BitVec.eq_of_getLsbD_eq
    intro i _
    rw [BitVec.getLsbD_and]
    cases hb : b.bits.getLsbD i with
    | false => simp
    | true => simp [h i hb]

@[simp] theorem or_contains_right (a b : PageTableFlags) : (a ||| b).contains b = true :=
  contains_iff.mpr fun i hi => by simp [hi]

/-- A flag of one bit is contained when that bit is set. -/
theorem contains_eq_getLsbD {a b : PageTableFlags} {n : ℕ} (hn : n < 64)
    (hb : b.bits = BitVec.twoPow 64 n) : a.contains b = a.bits.getLsbD n := by
  rw [Bool.eq_iff_iff, contains_iff, hb]
  simp [BitVec.getLsbD_twoPow, hn]

theorem contains_user (a : PageTableFlags) : a.contains .USER_ACCESSIBLE = a.bits.getLsbD 2 :=
  contains_eq_getLsbD (by decide) rfl

theorem contains_writable (a : PageTableFlags) : a.contains .WRITABLE = a.bits.getLsbD 1 :=
  contains_eq_getLsbD (by decide) rfl

theorem contains_huge (a : PageTableFlags) : a.contains .HUGE_PAGE = a.bits.getLsbD 7 :=
  contains_eq_getLsbD (by decide) rfl

theorem contains_global (a : PageTableFlags) : a.contains .GLOBAL = a.bits.getLsbD 8 :=
  contains_eq_getLsbD (by decide) rfl

/-- Removing a nonempty set of flags takes them away. -/
theorem remove_contains {a b : PageTableFlags} {i : ℕ} (hi : b.bits.getLsbD i = true) :
    (a.remove b).contains b = false := by
  rw [Bool.eq_false_iff]
  intro h
  have hbit := contains_iff.mp h i hi
  simp [remove, hi] at hbit

end PageTableFlags

/-! ## Entries -/

/-- `PageTableEntry`. -/
abbrev PageTableEntry := BitVec 64

namespace PageTableEntry

/-- `entry.is_unused()`. -/
def isUnused (w : PageTableEntry) : Bool := w == 0

/-- `entry.flags()`. -/
def flags (w : PageTableEntry) : PageTableFlags :=
  ⟨w &&& ~~~addrMask, by
    rw [BitVec.and_assoc, BitVec.and_comm (~~~addrMask), BitVec.and_not_self]
    exact BitVec.and_zero⟩

/-- The frame that `entry.addr()` lies in. -/
def addr (w : PageTableEntry) : PhysFrame :=
  ⟨(w.extractLsb' 12 40).toNat, (w.extractLsb' 12 40).isLt⟩

/-- The present bit. -/
def present (w : PageTableEntry) : Bool := w.flags.contains .PRESENT

/-- `entry.frame()`, without the reason of its failure. -/
def frame (w : PageTableEntry) : Option PhysFrame :=
  if w.present && !w.flags.contains .HUGE_PAGE then some w.addr else none

/-- The word of an entry for a frame. -/
def ofFrame (f : PhysFrame) (flags : PageTableFlags) : PageTableEntry :=
  BitVec.ofNat 64 (f.num * 4096) ||| flags.bits

/-- `entry.set_frame(frame, flags)`: panics when the flags say huge. -/
def setFrame (f : PhysFrame) (flags : PageTableFlags) : Except Panic PageTableEntry :=
  if flags.contains .HUGE_PAGE then .error .entryHugeFlag else .ok (ofFrame f flags)

/-- `entry.set_flags(flags)`: the address bits stay. -/
def setFlags (w : PageTableEntry) (flags : PageTableFlags) : PageTableEntry :=
  (w &&& addrMask) ||| flags.bits

theorem getLsbD_ofNum (f : PhysFrame) (i : ℕ) :
    (BitVec.ofNat 64 (f.num * 4096)).getLsbD i =
      (decide (12 ≤ i ∧ i < 52) && f.num.testBit (i - 12)) := by
  have hpow : (4096 : ℕ) = 2 ^ 12 := rfl
  rw [BitVec.getLsbD_ofNat, hpow, Nat.testBit_mul_two_pow]
  by_cases hi : i < 52
  · have : i < 64 := by omega
    simp [hi, this]
  · have hlt : f.num < 2 ^ (i - 12) :=
      f.isLt.trans_le (Nat.pow_le_pow_right (by decide) (by omega))
    simp [hi, Nat.testBit_lt_two_pow hlt]

@[simp] theorem addr_ofFrame (f : PhysFrame) (flags : PageTableFlags) :
    (ofFrame f flags).addr = f := by
  have hword : (ofFrame f flags).extractLsb' 12 40 = BitVec.ofNat 40 f.num := by
    apply BitVec.eq_of_getLsbD_eq
    intro i hi
    rw [BitVec.getLsbD_extractLsb', ofFrame, BitVec.getLsbD_or, getLsbD_ofNum,
      flags.getLsbD_eq_false (by omega), BitVec.getLsbD_ofNat]
    have hmid : 12 ≤ 12 + i ∧ 12 + i < 52 := by omega
    simp [hi, hmid]
  ext
  simp only [addr, hword, BitVec.toNat_ofNat]
  exact Nat.mod_eq_of_lt f.isLt

@[simp] theorem flags_ofFrame (f : PhysFrame) (flags : PageTableFlags) :
    (ofFrame f flags).flags = flags := by
  ext1
  apply BitVec.eq_of_getLsbD_eq
  intro i hi
  simp only [PageTableEntry.flags, ofFrame, BitVec.getLsbD_and, BitVec.getLsbD_or,
    BitVec.getLsbD_not, getLsbD_addrMask hi, getLsbD_ofNum, hi, decide_true, Bool.true_and]
  by_cases hmid : 12 ≤ i ∧ i < 52
  · simp [hmid, flags.getLsbD_eq_false hmid]
  · simp [hmid]

@[simp] theorem present_ofFrame (f : PhysFrame) (flags : PageTableFlags) :
    (ofFrame f flags).present = flags.contains .PRESENT := by
  rw [present, flags_ofFrame]

theorem frame_ofFrame (f : PhysFrame) {flags : PageTableFlags} (hp : flags.contains .PRESENT)
    (hh : flags.contains .HUGE_PAGE = false) : (ofFrame f flags).frame = some f := by
  simp [frame, hp, hh]

theorem frame_eq_some {w : PageTableEntry} {f : PhysFrame} (h : w.frame = some f) :
    w.present = true ∧ w.addr = f := by
  unfold frame at h
  split_ifs at h with hcond
  simp only [Bool.and_eq_true] at hcond
  exact ⟨hcond.1, by simpa using h⟩

theorem setFrame_eq_ok {f : PhysFrame} {flags : PageTableFlags} {w : PageTableEntry} :
    setFrame f flags = .ok w ↔ flags.contains .HUGE_PAGE = false ∧ w = ofFrame f flags := by
  unfold setFrame
  split_ifs with h
  · simp [h]
  · simp [h, eq_comm]

@[simp] theorem flags_setFlags (w : PageTableEntry) (flags : PageTableFlags) :
    (w.setFlags flags).flags = flags := by
  ext1
  apply BitVec.eq_of_getLsbD_eq
  intro i hi
  simp only [PageTableEntry.flags, setFlags, BitVec.getLsbD_and, BitVec.getLsbD_or,
    BitVec.getLsbD_not, getLsbD_addrMask hi, hi, decide_true, Bool.true_and]
  by_cases hmid : 12 ≤ i ∧ i < 52
  · simp [hmid, flags.getLsbD_eq_false hmid]
  · simp [hmid]

/-- Clearing the present bit through `set_flags`. -/
theorem present_setFlags_remove (w : PageTableEntry) :
    (w.setFlags (w.flags.remove .PRESENT)).present = false := by
  rw [present, flags_setFlags]
  exact PageTableFlags.remove_contains (i := 0) (by decide)

-- the form in which `simp` writes the unused entry
@[simp] theorem present_zero : present 0#64 = false := by decide

@[simp] theorem frame_zero : frame 0 = none := by decide

end PageTableEntry

end HeliumOS.Mem
