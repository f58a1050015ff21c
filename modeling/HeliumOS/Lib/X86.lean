import Mathlib.Data.List.GetD
import HeliumOS.Lib.ByteMemory

/-!
# Straight-Line x86-64 Code

Registers, memory and the few instructions that entry and exit code is made of.  Addresses are
words of 64 bits and wrap around.

## Layers

- **Words in memory**: two words do not overlap when their distance says so (`Apart`).
- **Instructions**: `exec` for one, `run` for a sequence.
- **Pushed words**: a sequence of pushes is `pushAll`; what it stored is read back
  (`word_pushAll`), and everything apart from it is as before (`word_pushAll_of_apart`).
- **Entry**: what the processor does on `syscall` and on an interrupt from user mode.
-/

namespace HeliumOS.Lib.X86

open HeliumOS.Lib

/-! ## Words in memory -/

/-- The word at an address. -/
def word (m : ByteMemory) (a : BitVec 64) : BitVec 64 := m.load 64 a.toNat

/-- Store a word. -/
def setWord (m : ByteMemory) (a v : BitVec 64) : ByteMemory := m.store a.toNat v

/-- The words at two addresses have no byte in common.  Only the distance counts. -/
def Apart (a b : BitVec 64) : Prop := 8 ≤ (b - a).toNat ∧ (b - a).toNat ≤ 2 ^ 64 - 8

instance (a b : BitVec 64) : Decidable (Apart a b) := inferInstanceAs (Decidable (_ ∧ _))

/-- To be apart does not depend on which word comes first, even around the end of the address space.
-/
theorem Apart.symm {a b : BitVec 64} (h : Apart a b) : Apart b a := by
  obtain ⟨hlow, hhigh⟩ := h
  rw [BitVec.toNat_sub] at hlow hhigh
  have ha := a.isLt
  have hb := b.isLt
  rw [Apart, BitVec.toNat_sub]
  omega

/-- Neighbours. -/
theorem apart_add_eight (a : BitVec 64) : Apart a (a + 8) := by
  have h8 : (a + 8 - a).toNat = 8 := by
    rw [BitVec.add_comm, BitVec.add_sub_cancel]
    rfl
  rw [Apart, h8]
  decide

theorem word_setWord_self (m : ByteMemory) (a v : BitVec 64) : word (setWord m a v) a = v :=
  ByteMemory.load_store_self (by decide) v

theorem word_setWord_of_apart {m : ByteMemory} {a b v : BitVec 64} (h : Apart a b) :
    word (setWord m a v) b = word m b := by
  obtain ⟨hlow, hhigh⟩ := h
  rw [BitVec.toNat_sub] at hlow hhigh
  have ha := a.isLt
  have hb := b.isLt
  apply ByteMemory.load_store_of_apart
  omega

/-! ## The processor -/

/-- The general-purpose registers. -/
inductive Reg where
  | rax | rbx | rcx | rdx | rsi | rdi | rbp | rsp | r8 | r9 | r10 | r11 | r12 | r13 | r14 | r15
  deriving DecidableEq, Repr

/-- The segment registers that `mov` writes here. -/
inductive Seg where
  | ds | es | fs | gs
  deriving DecidableEq, Repr

/-- A core. -/
structure Cpu where
  reg : Reg → BitVec 64
  rip : BitVec 64
  rflags : BitVec 64
  cs : BitVec 16
  ss : BitVec 16
  seg : Seg → BitVec 16
  gsBase : BitVec 64
  kernelGsBase : BitVec 64
  mem : ByteMemory

/-- What an instruction reads. -/
inductive Operand where
  | reg (r : Reg)
  | imm (v : BitVec 64)
  | mem (base : Reg) (disp : BitVec 64)
  | gs (disp : BitVec 64)

inductive Instr where
  | cli
  | swapgs
  | push (src : Operand)
  | mov (dst : Reg) (src : Operand)
  | storeGs (disp : BitVec 64) (src : Reg)
  | movSeg (dst : Seg) (src : Reg)
  | sub (dst : Reg) (v : BitVec 64)
  | and (dst : Reg) (v : BitVec 64)
  | call
  | iretq

/-- What the listing of a sequence does not say: the flags that arithmetic leaves, and the addresses
of the instruction behind a `call` and of the function called. -/
structure Open where
  flags : BitVec 64 → BitVec 64
  returnAddress : BitVec 64
  target : BitVec 64

namespace Cpu

variable (c : Cpu)

/-- Write a register. -/
def set (r : Reg) (v : BitVec 64) : Cpu := { c with reg := Function.update c.reg r v }

/-- Push a word. -/
def push (v : BitVec 64) : Cpu :=
  { c with
    reg := Function.update c.reg .rsp (c.reg .rsp - 8)
    mem := setWord c.mem (c.reg .rsp - 8) v }

/-- The value of an operand. -/
def value : Operand → BitVec 64
  | .reg r => c.reg r
  | .imm v => v
  | .mem base disp => word c.mem (c.reg base + disp)
  | .gs disp => word c.mem (c.gsBase + disp)

@[simp] theorem set_reg_self (r : Reg) (v : BitVec 64) : (c.set r v).reg r = v :=
  Function.update_self ..

@[simp] theorem set_reg_of_ne {r r' : Reg} (v : BitVec 64) (h : r' ≠ r) :
    (c.set r v).reg r' = c.reg r' :=
  Function.update_of_ne h ..

@[simp] theorem set_rip (r : Reg) (v : BitVec 64) : (c.set r v).rip = c.rip := rfl
@[simp] theorem set_rflags (r : Reg) (v : BitVec 64) : (c.set r v).rflags = c.rflags := rfl
@[simp] theorem set_cs (r : Reg) (v : BitVec 64) : (c.set r v).cs = c.cs := rfl
@[simp] theorem set_ss (r : Reg) (v : BitVec 64) : (c.set r v).ss = c.ss := rfl
@[simp] theorem set_gsBase (r : Reg) (v : BitVec 64) : (c.set r v).gsBase = c.gsBase := rfl
@[simp] theorem set_kernelGsBase (r : Reg) (v : BitVec 64) :
    (c.set r v).kernelGsBase = c.kernelGsBase := rfl
@[simp] theorem set_mem (r : Reg) (v : BitVec 64) : (c.set r v).mem = c.mem := rfl

/-- Push words, the first one first. -/
def pushAll (vs : List (BitVec 64)) : Cpu := vs.foldl Cpu.push c

end Cpu

/-! ## Instructions -/

/-- One instruction. -/
def exec (o : Open) (c : Cpu) : Instr → Cpu
  -- the interrupt flag is bit 9
  | .cli => { c with rflags := c.rflags &&& ~~~0x200 }
  | .swapgs => { c with gsBase := c.kernelGsBase, kernelGsBase := c.gsBase }
  | .push src => c.push (c.value src)
  | .mov dst src => c.set dst (c.value src)
  | .storeGs disp src => { c with mem := setWord c.mem (c.gsBase + disp) (c.reg src) }
  | .movSeg dst src =>
    { c with
      seg := Function.update c.seg dst ((c.reg src).setWidth 16)
      -- a selector for `gs` loads the base of a flat descriptor
      gsBase := if dst = .gs then 0 else c.gsBase }
  | .sub dst v => { c.set dst (c.reg dst - v) with rflags := o.flags c.rflags }
  | .and dst v => { c.set dst (c.reg dst &&& v) with rflags := o.flags c.rflags }
  | .call => { c.push o.returnAddress with rip := o.target }
  | .iretq =>
    let top := c.reg .rsp
    { c with
      rip := word c.mem top
      cs := (word c.mem (top + 8)).setWidth 16
      rflags := word c.mem (top + 16)
      reg := Function.update c.reg .rsp (word c.mem (top + 24))
      ss := (word c.mem (top + 32)).setWidth 16 }

/-- A sequence of instructions. -/
def run (o : Open) (is : List Instr) (c : Cpu) : Cpu := is.foldl (exec o) c

variable {o : Open} {c : Cpu}

@[simp] theorem run_nil : run o [] c = c := rfl

@[simp] theorem run_cons (i : Instr) (is : List Instr) :
    run o (i :: is) c = run o is (exec o c i) :=
  rfl

theorem run_append (is js : List Instr) : run o (is ++ js) c = run o js (run o is c) :=
  List.foldl_append

/-! ## Pushed words -/

/-- The address of the `i`-th word pushed below `top`. -/
def slot (top : BitVec 64) (i : ℕ) : BitVec 64 := top - BitVec.ofNat 64 (8 * (i + 1))

/-- A word is apart from the first `n` words below `top`. -/
def ApartStack (top : BitVec 64) (n : ℕ) (a : BitVec 64) : Prop := ∀ i < n, Apart (slot top i) a

theorem ApartStack.mono {top a : BitVec 64} {n k : ℕ} (h : ApartStack top n a) (hk : k ≤ n) :
    ApartStack top k a :=
  fun i hi => h i (hi.trans_le hk)

/-- One word more. -/
theorem sub_words_succ (top : BitVec 64) (n : ℕ) :
    top - 8 - BitVec.ofNat 64 (8 * n) = top - BitVec.ofNat 64 (8 * (n + 1)) := by
  apply BitVec.eq_of_toNat_eq
  have height : (8 : BitVec 64).toNat = 8 := rfl
  simp only [BitVec.toNat_sub, BitVec.toNat_ofNat, height]
  omega

/-- The words on the stack, counted from the last one pushed. -/
theorem sub_words_add {n k : ℕ} (top : BitVec 64) (hk : k < n) :
    top - BitVec.ofNat 64 (8 * n) + BitVec.ofNat 64 (8 * k) = slot top (n - 1 - k) := by
  apply BitVec.eq_of_toNat_eq
  simp only [slot, BitVec.toNat_add, BitVec.toNat_sub, BitVec.toNat_ofNat]
  omega

theorem slot_sub_words (top : BitVec 64) (n i : ℕ) :
    slot (top - BitVec.ofNat 64 (8 * n)) i = slot top (i + n) := by
  apply BitVec.eq_of_toNat_eq
  simp only [slot, BitVec.toNat_sub, BitVec.toNat_ofNat]
  omega

theorem slot_succ (top : BitVec 64) (i : ℕ) : slot (top - 8) i = slot top (i + 1) :=
  sub_words_succ top (i + 1)

/-- Two slots of a stack that does not wrap onto itself. -/
theorem apart_slot {top : BitVec 64} {i k : ℕ} (hik : i ≠ k) (hi : i < 2 ^ 60) (hk : k < 2 ^ 60) :
    Apart (slot top i) (slot top k) := by
  have ht := top.isLt
  simp only [Apart, slot, BitVec.toNat_sub, BitVec.toNat_ofNat]
  omega

namespace Cpu

@[simp] theorem pushAll_nil : c.pushAll [] = c := rfl

@[simp] theorem pushAll_cons (v : BitVec 64) (vs : List (BitVec 64)) :
    c.pushAll (v :: vs) = (c.push v).pushAll vs := rfl

theorem pushAll_append (vs ws : List (BitVec 64)) :
    c.pushAll (vs ++ ws) = (c.pushAll vs).pushAll ws :=
  List.foldl_append

/-- Writing a register other than the stack pointer and pushing do not interfere. -/
theorem push_set {r : Reg} (v w : BitVec 64) (h : r ≠ .rsp) :
    (c.set r v).push w = (c.push w).set r v := by
  simp only [push, set, Function.update_of_ne h.symm]
  rw [Function.update_comm h]

theorem pushAll_set {r : Reg} (v : BitVec 64) (vs : List (BitVec 64)) (h : r ≠ .rsp) :
    (c.set r v).pushAll vs = (c.pushAll vs).set r v := by
  induction vs generalizing c with
  | nil => rfl
  | cons w vs ih => rw [pushAll_cons, push_set v w h, ih, pushAll_cons]

@[simp] theorem push_rsp (v : BitVec 64) : (c.push v).reg .rsp = c.reg .rsp - 8 :=
  Function.update_self Reg.rsp _ c.reg

@[simp] theorem push_reg_of_ne {r : Reg} (v : BitVec 64) (h : r ≠ .rsp) :
    (c.push v).reg r = c.reg r :=
  Function.update_of_ne h ..

/-- Pushing changes the stack pointer and memory only. -/
theorem pushAll_eq (vs : List (BitVec 64)) : c.pushAll vs =
    { c with
      reg := Function.update c.reg .rsp (c.reg .rsp - BitVec.ofNat 64 (8 * vs.length))
      mem := (c.pushAll vs).mem } := by
  induction vs generalizing c with
  | nil => simp
  | cons v vs ih =>
    rw [pushAll_cons, ih]
    simp only [push_rsp, List.length_cons, sub_words_succ]
    simp only [push, Function.update_idem]

@[simp] theorem pushAll_rsp (vs : List (BitVec 64)) :
    (c.pushAll vs).reg .rsp = c.reg .rsp - BitVec.ofNat 64 (8 * vs.length) := by
  rw [pushAll_eq]
  exact Function.update_self Reg.rsp _ c.reg

@[simp] theorem pushAll_reg_of_ne {r : Reg} (vs : List (BitVec 64)) (h : r ≠ .rsp) :
    (c.pushAll vs).reg r = c.reg r := by
  rw [pushAll_eq]
  exact Function.update_of_ne h ..

@[simp] theorem pushAll_gsBase (vs : List (BitVec 64)) : (c.pushAll vs).gsBase = c.gsBase := by
  rw [pushAll_eq]

@[simp] theorem pushAll_kernelGsBase (vs : List (BitVec 64)) :
    (c.pushAll vs).kernelGsBase = c.kernelGsBase := by
  rw [pushAll_eq]

end Cpu

/-- What is apart from the words pushed is as before. -/
theorem word_pushAll_of_apart {vs : List (BitVec 64)} {a : BitVec 64}
    (h : ApartStack (c.reg .rsp) vs.length a) : word (c.pushAll vs).mem a = word c.mem a := by
  induction vs generalizing c with
  | nil => rfl
  | cons v vs ih =>
    rw [Cpu.pushAll_cons, ih]
    · refine word_setWord_of_apart ?_
      simpa [slot] using h 0 (by simp)
    · intro i hi
      rw [Cpu.push_rsp, slot_succ]
      exact h (i + 1) (by simpa using hi)

/-- What was pushed is read back. -/
theorem word_pushAll {vs : List (BitVec 64)} {i : ℕ} (hlen : vs.length < 2 ^ 60)
    (hi : i < vs.length) : word (c.pushAll vs).mem (slot (c.reg .rsp) i) = vs.getD i 0 := by
  induction vs generalizing c i with
  | nil => simp at hi
  | cons v vs ih =>
    rw [List.length_cons] at hlen hi
    rw [Cpu.pushAll_cons]
    cases i with
    | zero =>
      -- the pushes that follow are below the first word
      rw [word_pushAll_of_apart]
      · exact word_setWord_self ..
      · intro k hk
        rw [Cpu.push_rsp, slot_succ]
        exact apart_slot (by omega) (by omega) (by omega)
    | succ i =>
      rw [← slot_succ, ← Cpu.push_rsp (c := c) v, ih (by omega) (by omega)]
      rfl

/-- A sequence of pushes of registers. -/
theorem run_push_regs (rs : List Reg) (h : .rsp ∉ rs) :
    run o (rs.map fun r => .push (.reg r)) c = c.pushAll (rs.map c.reg) := by
  induction rs generalizing c with
  | nil => rfl
  | cons r rs ih =>
    have hrs : .rsp ∉ rs := fun hmem => h (List.mem_cons_of_mem r hmem)
    have hregs : rs.map (c.push (c.reg r)).reg = rs.map c.reg := by
      refine List.map_congr_left fun r' hr' => Cpu.push_reg_of_ne _ ?_
      rintro rfl
      exact hrs hr'
    rw [List.map_cons, run_cons, exec, Cpu.value, ih hrs, hregs]
    rfl

theorem toNat_and_align (x : BitVec 64) :
    (x &&& 0xFFFFFFFFFFFFFFF0).toNat = x.toNat / 16 * 16 := by
  have hmask : ∀ i < 64, (0xFFFFFFFFFFFFFFF0 : BitVec 64).getLsbD i = decide (4 ≤ i) := by decide
  have hshift : x &&& (0xFFFFFFFFFFFFFFF0 : BitVec 64) = (x >>> 4) <<< 4 := by
    apply BitVec.eq_of_getLsbD_eq
    intro i hi
    rw [BitVec.getLsbD_and, hmask i hi, BitVec.getLsbD_shiftLeft, BitVec.getLsbD_ushiftRight]
    by_cases h4 : 4 ≤ i
    · simp [h4, hi, show ¬ i < 4 by omega, show 4 + (i - 4) = i by omega]
    · simp [h4, show i < 4 by omega]
  have hx := x.isLt
  rw [hshift, BitVec.toNat_shiftLeft, BitVec.toNat_ushiftRight, Nat.shiftRight_eq_div_pow,
    Nat.shiftLeft_eq]
  omega

/-! ## Entry -/

/-- `syscall`, two bytes long: the address behind it goes to `rcx`, the flags to `r11`. -/
def Cpu.syscall (c : Cpu) (lstar mask : BitVec 64) (kernelCs kernelSs : BitVec 16) : Cpu :=
  { (c.set .rcx (c.rip + 2)).set .r11 c.rflags with
    rip := lstar
    rflags := c.rflags &&& ~~~mask
    cs := kernelCs
    ss := kernelSs }

/-- An interrupt in user mode: the stack is the one given, aligned to 16 bytes, and the processor
pushes the state that `iretq` restores. -/
def Cpu.interrupt (c : Cpu) (handler rsp0 : BitVec 64) (kernelCs : BitVec 16) : Cpu :=
  { (c.set .rsp (rsp0 &&& ~~~15)).pushAll
      [c.ss.setWidth 64, c.reg .rsp, c.rflags, c.cs.setWidth 64, c.rip] with
    rip := handler
    -- an interrupt gate clears the interrupt flag
    rflags := c.rflags &&& ~~~0x200
    cs := kernelCs
    ss := 0 }

theorem Cpu.interrupt_rsp (handler rsp0 : BitVec 64) (kernelCs : BitVec 16) :
    (c.interrupt handler rsp0 kernelCs).reg .rsp =
      (rsp0 &&& ~~~15) - BitVec.ofNat 64 (8 * 5) := by
  rw [interrupt, pushAll_rsp, set_reg_self]
  rfl

theorem Cpu.interrupt_kernelGsBase (handler rsp0 : BitVec 64) (kernelCs : BitVec 16) :
    (c.interrupt handler rsp0 kernelCs).kernelGsBase = c.kernelGsBase := by
  rw [interrupt, pushAll_kernelGsBase, set_kernelGsBase]

end HeliumOS.Lib.X86
