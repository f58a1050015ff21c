import HeliumOS.Lib.X86
import HeliumOS.Mem.Gdt
import HeliumOS.Proc.Task

/-!
# Saving and Restoring Registers

The assembly at the two ends of a stay in the kernel: `syscall_handle_1` and `timer_inter_1`, which
push the registers of the user, and `TaskProcState::apply`, which loads them.

## Layers

- **The packed structure**: `TaskProcState.read` reads it at an address; pushing its words in
  reverse builds it (`read_pushAll`).
- **The call**: the code behind the pushes leaves the structure alone (`read_callRust`).
- **Saving**: `syscallHandle1_saves`, `timerInter1_saves`.
- **Restoring**: `apply_restores`.
- **Both**: `timer_context_roundtrip`.
-/

namespace HeliumOS.Proc

open HeliumOS.Lib HeliumOS.Lib.X86 HeliumOS.Mem

/-! ## The packed structure -/

/-- The words of the packed structure, in the order of their offsets. -/
def TaskProcState.words (s : TaskProcState) : List (BitVec 64) :=
  [s.rip, s.rflags, s.codeSeg, s.dataSeg, s.rsp, s.rbp, s.rsi, s.rdi, s.r8, s.r9, s.r10, s.r11,
    s.r12, s.r13, s.r14, s.r15, s.rax, s.rbx, s.rcx, s.rdx]

/-- The structure at an address. -/
def TaskProcState.read (m : ByteMemory) (p : BitVec 64) : TaskProcState where
  rip := word m (p + 0)
  rflags := word m (p + 8)
  codeSeg := word m (p + 16)
  dataSeg := word m (p + 24)
  rsp := word m (p + 32)
  rbp := word m (p + 40)
  rsi := word m (p + 48)
  rdi := word m (p + 56)
  r8 := word m (p + 64)
  r9 := word m (p + 72)
  r10 := word m (p + 80)
  r11 := word m (p + 88)
  r12 := word m (p + 96)
  r13 := word m (p + 104)
  r14 := word m (p + 112)
  r15 := word m (p + 120)
  rax := word m (p + 128)
  rbx := word m (p + 136)
  rcx := word m (p + 144)
  rdx := word m (p + 152)

section Fields

variable {m : ByteMemory} {p : BitVec 64}

theorem TaskProcState.read_rip : (TaskProcState.read m p).rip = word m (p + 0) := rfl
theorem TaskProcState.read_rflags : (TaskProcState.read m p).rflags = word m (p + 8) := rfl
theorem TaskProcState.read_rsp : (TaskProcState.read m p).rsp = word m (p + 32) := rfl

end Fields

@[simp] theorem TaskProcState.length_words (s : TaskProcState) : s.words.length = 20 := rfl

theorem TaskProcState.words_injective : Function.Injective TaskProcState.words := by
  intro s s' h
  cases s
  cases s'
  simpa only [TaskProcState.words, List.cons.injEq, and_true, TaskProcState.mk.injEq] using h

/-- The offsets are those of twenty words without gaps. -/
theorem TaskProcState.words_read (m : ByteMemory) (p : BitVec 64) :
    (TaskProcState.read m p).words =
      (List.range 20).map fun k => word m (p + BitVec.ofNat 64 (8 * k)) := by
  simp only [List.range_succ, List.range_zero, List.nil_append, List.cons_append, List.map_cons,
    List.map_nil, Nat.reduceMul]
  rfl

/-- The structure is determined by its words. -/
theorem TaskProcState.read_eq {m : ByteMemory} {p : BitVec 64} {s : TaskProcState}
    (h : ∀ k < 20, word m (p + BitVec.ofNat 64 (8 * k)) = s.words.getD k 0) :
    TaskProcState.read m p = s := by
  apply TaskProcState.words_injective
  rw [TaskProcState.words_read]
  apply List.ext_getElem
  · simp
  · intro k hk hk'
    rw [List.getElem_map, List.getElem_range, h k hk', List.getD_eq_getElem]

theorem TaskProcState.read_congr {m m' : ByteMemory} {p : BitVec 64}
    (h : ∀ k < 20, word m' (p + BitVec.ofNat 64 (8 * k)) = word m (p + BitVec.ofNat 64 (8 * k))) :
    TaskProcState.read m' p = TaskProcState.read m p := by
  apply TaskProcState.words_injective
  rw [TaskProcState.words_read, TaskProcState.words_read]
  exact List.map_congr_left fun k hk => h k (List.mem_range.mp hk)

/-- Pushing the words from the last to the first builds the structure. -/
theorem read_pushAll (c : Cpu) (s : TaskProcState) :
    TaskProcState.read (c.pushAll s.words.reverse).mem (c.reg .rsp - 160) = s := by
  refine TaskProcState.read_eq fun k hk => ?_
  have hsize : (160 : BitVec 64) = BitVec.ofNat 64 (8 * 20) := rfl
  rw [hsize, sub_words_add (c.reg .rsp) hk, word_pushAll (by simp) (by simp; omega),
    List.getD_eq_getElem _ _ (by simp; omega), List.getD_eq_getElem _ _ (by simpa using hk),
    List.getElem_reverse]
  congr 1
  rw [TaskProcState.length_words]
  omega

/-- The general-purpose registers of the structure. -/
def TaskProcState.regs (s : TaskProcState) : Reg → BitVec 64
  | .rax => s.rax
  | .rbx => s.rbx
  | .rcx => s.rcx
  | .rdx => s.rdx
  | .rsi => s.rsi
  | .rdi => s.rdi
  | .rbp => s.rbp
  | .rsp => s.rsp
  | .r8 => s.r8
  | .r9 => s.r9
  | .r10 => s.r10
  | .r11 => s.r11
  | .r12 => s.r12
  | .r13 => s.r13
  | .r14 => s.r14
  | .r15 => s.r15

/-! ## The listings -/

/-- The pushes that both ways into the kernel begin with. -/
def savedRegs : List Reg :=
  [.rdx, .rcx, .rbx, .rax, .r15, .r14, .r13, .r12, .r11, .r10, .r9, .r8, .rdi, .rsi, .rbp]

def pushRegs : List Instr := savedRegs.map fun r => .push (.reg r)

/-- The structure is passed in `rdi`, the stack is aligned, and the function in Rust is called. -/
def callRust : List Instr :=
  [.mov .rdi (.reg .rsp), .sub .rsp 16, .and .rsp 0xFFFFFFFFFFFFFFF0, .sub .rsp 8, .swapgs, .call]

/-- `syscall_handle_1`. -/
def syscallHandle1 : List Instr :=
  [.cli, .swapgs, .storeGs 0 .rsp, .mov .rsp (.gs 8)] ++ pushRegs ++
  [.mov .rax (.gs 0), .push (.reg .rax), .push (.imm 0x1B), .push (.imm 0x23), .push (.reg .r11),
    .push (.reg .rcx)] ++ callRust

/-- `timer_inter_1`. -/
def timerInter1 : List Instr :=
  [.cli, .swapgs, .storeGs 0 .rsp] ++ pushRegs ++
  [.mov .rax (.gs 0), .mov .rbx (.mem .rax 24), .push (.reg .rbx), .push (.imm 0x1B),
    .push (.imm 0x23), .mov .r11 (.mem .rax 16), .mov .rcx (.mem .rax 0), .push (.reg .r11),
    .push (.reg .rcx)] ++ callRust

/-- The loads of `TaskProcState::apply`, `rdi` last. -/
def loadRegs : List Instr :=
  [.mov .rax (.mem .rdi 128), .mov .rbx (.mem .rdi 136), .mov .rcx (.mem .rdi 144),
    .mov .rdx (.mem .rdi 152), .mov .rbp (.mem .rdi 40), .mov .rsi (.mem .rdi 48),
    .mov .r8 (.mem .rdi 64), .mov .r9 (.mem .rdi 72), .mov .r10 (.mem .rdi 80),
    .mov .r11 (.mem .rdi 88), .mov .r12 (.mem .rdi 96), .mov .r13 (.mem .rdi 104),
    .mov .r14 (.mem .rdi 112), .mov .r15 (.mem .rdi 120), .mov .rdi (.mem .rdi 56)]

/-- `TaskProcState::apply`. -/
def applyAsm : List Instr :=
  [.movSeg .ds .rax, .movSeg .es .rax, .movSeg .fs .rax, .movSeg .gs .rax] ++
  [.push (.reg .rax), .push (.mem .rdi 32), .push (.mem .rdi 8), .push (.reg .rcx),
    .push (.mem .rdi 0)] ++ loadRegs ++ [.iretq]

/-! ## The call -/

variable {o : Open} {c : Cpu}

/-- The call gets the address of the structure, and what it pushes is below it. -/
theorem read_callRust : (run o callRust c).reg .rdi = c.reg .rsp ∧
    TaskProcState.read (run o callRust c).mem (c.reg .rsp) =
      TaskProcState.read c.mem (c.reg .rsp) := by
  refine ⟨by simp [callRust, X86.exec, Cpu.value], TaskProcState.read_congr fun k hk => ?_⟩
  have hmem : (run o callRust c).mem =
      setWord c.mem (((c.reg .rsp - 16) &&& 0xFFFFFFFFFFFFFFF0) - 8 - 8) o.returnAddress := by
    simp [callRust, X86.exec, Cpu.value, Cpu.push]
  rw [hmem]
  apply word_setWord_of_apart
  -- at least 32 and less than 48 bytes below the structure
  have h8 : (8 : BitVec 64).toNat = 8 := rfl
  have h16 : (16 : BitVec 64).toNat = 16 := rfl
  have hrsp := (c.reg .rsp).isLt
  simp only [Apart, BitVec.toNat_sub, BitVec.toNat_add, BitVec.toNat_ofNat, toNat_and_align,
    h8, h16]
  omega

/-! ## Saving -/

/-- The registers of a core as the structure has them. -/
def procState (c : Cpu) : TaskProcState where
  rip := c.rip
  rflags := c.rflags
  codeSeg := c.cs.setWidth 64
  dataSeg := c.ss.setWidth 64
  rsp := c.reg .rsp
  rbp := c.reg .rbp
  rsi := c.reg .rsi
  rdi := c.reg .rdi
  r8 := c.reg .r8
  r9 := c.reg .r9
  r10 := c.reg .r10
  r11 := c.reg .r11
  r12 := c.reg .r12
  r13 := c.reg .r13
  r14 := c.reg .r14
  r15 := c.reg .r15
  rax := c.reg .rax
  rbx := c.reg .rbx
  rcx := c.reg .rcx
  rdx := c.reg .rdx

theorem regs_procState (c : Cpu) : (procState c).regs = c.reg := by
  funext r
  cases r <;> rfl

/-- The structure determines the registers it holds. -/
theorem eq_of_procState {f : Cpu} (h : procState f = procState c) :
    f.reg = c.reg ∧ f.rip = c.rip ∧ f.rflags = c.rflags ∧ f.cs = c.cs ∧ f.ss = c.ss := by
  have hwiden {x y : BitVec 16} (hxy : x.setWidth 64 = y.setWidth 64) : x = y := by
    have hcut := congrArg (BitVec.setWidth 16) hxy
    simpa using hcut
  refine ⟨?_, congrArg TaskProcState.rip h, congrArg TaskProcState.rflags h,
    hwiden (congrArg TaskProcState.codeSeg h), hwiden (congrArg TaskProcState.dataSeg h)⟩
  rw [← regs_procState f, h, regs_procState]

/-- Both ways into the kernel push the words of a structure, and then call. -/
theorem read_of_pushes {k : Cpu} {s : TaskProcState}
    (hmem : k.mem = (c.pushAll s.words.reverse).mem)
    (hrsp : k.reg .rsp = (c.pushAll s.words.reverse).reg .rsp) :
    TaskProcState.read (run o callRust k).mem ((run o callRust k).reg .rdi) = s := by
  have htop : (c.pushAll s.words.reverse).reg .rsp = c.reg .rsp - 160 := by
    rw [Cpu.pushAll_rsp, List.length_reverse, TaskProcState.length_words]
    rfl
  rw [read_callRust.1, read_callRust.2, hrsp, hmem, htop, read_pushAll]

/-- **What `syscall_handle_1` saves**, from the state in which `syscall` leaves the core.  The word
in which it keeps the stack pointer of the user is not on the stack. -/
theorem syscallHandle1_saves
    (h : ApartStack (word c.mem (c.kernelGsBase + 8)) 15 c.kernelGsBase) :
    TaskProcState.read (run o syscallHandle1 c).mem ((run o syscallHandle1 c).reg .rdi) =
      { procState c with
        rip := c.reg .rcx, rflags := c.reg .r11, codeSeg := 0x23, dataSeg := 0x1b } := by
  set g := c.kernelGsBase with hg
  -- on the stack of the kernel
  set k := run o [.cli, .swapgs, .storeGs 0 .rsp, .mov .rsp (.gs 8)] c with hk
  have hgs : k.gsBase = g := rfl
  have hkmem : k.mem = setWord c.mem g (c.reg .rsp) :=
    congrArg (setWord c.mem · (c.reg .rsp)) (BitVec.add_zero g)
  have hrsp : k.reg .rsp = word c.mem (g + 8) := by
    have hload : k.reg .rsp = word k.mem (g + 8) := Function.update_self Reg.rsp _ c.reg
    rw [hload, hkmem, word_setWord_of_apart (apart_add_eight g)]
  -- the registers are pushed, and the stack pointer of the user is still in its word
  have huser : word (k.pushAll (savedRegs.map k.reg)).mem g = c.reg .rsp := by
    rw [word_pushAll_of_apart, hkmem, word_setWord_self]
    rw [hrsp]
    exact h
  have hsplit : run o syscallHandle1 c =
      run o callRust (run o [.mov .rax (.gs 0), .push (.reg .rax), .push (.imm 0x1B),
        .push (.imm 0x23), .push (.reg .r11), .push (.reg .rcx)]
          (k.pushAll (savedRegs.map k.reg))) := by
    rw [← run_push_regs (o := o) savedRegs (by decide), hk]
    simp only [syscallHandle1, run_append, pushRegs]
  rw [hsplit]
  have hwords : (k.pushAll (savedRegs.map k.reg)).pushAll
      [c.reg .rsp, 0x1B, 0x23, k.reg .r11, k.reg .rcx] =
      k.pushAll (TaskProcState.words { procState c with
        rip := c.reg .rcx, rflags := c.reg .r11, codeSeg := 0x23, dataSeg := 0x1b }).reverse := by
    rw [← Cpu.pushAll_append]
    rfl
  have hrun : run o [.mov .rax (.gs 0), .push (.reg .rax), .push (.imm 0x1B), .push (.imm 0x23),
      .push (.reg .r11), .push (.reg .rcx)] (k.pushAll (savedRegs.map k.reg)) =
      ((k.pushAll (savedRegs.map k.reg)).pushAll
        [c.reg .rsp, 0x1B, 0x23, k.reg .r11, k.reg .rcx]).set .rax (c.reg .rsp) := by
    simp [X86.exec, Cpu.value, Cpu.push_set, hgs, huser]
  rw [hrun]
  refine read_of_pushes (c := k) ?_ ?_
  · rw [Cpu.set_mem, hwords]
  · rw [Cpu.set_reg_of_ne _ _ (by decide), hwords]

section Timer

variable {handler rsp0 : BitVec 64} {kernelCs : BitVec 16}

/-- What the processor pushes on the way into `timer_inter_1`. -/
def interruptFrame (c : Cpu) : List (BitVec 64) :=
  [c.ss.setWidth 64, c.reg .rsp, c.rflags, c.cs.setWidth 64, c.rip]

/-- The frame of the processor stays readable while `timer_inter_1` pushes below it. -/
theorem word_interruptFrame {k : Cpu} {vs : List (BitVec 64)} {i : ℕ}
    (h : ApartStack (rsp0 &&& ~~~15) 20 c.kernelGsBase)
    (hmem : k.mem = setWord (c.interrupt handler rsp0 kernelCs).mem c.kernelGsBase
      ((c.interrupt handler rsp0 kernelCs).reg .rsp))
    (hrsp : k.reg .rsp = (rsp0 &&& ~~~15) - BitVec.ofNat 64 (8 * 5)) (hvs : vs.length ≤ 20)
    (hi : i < 5) :
    word (k.pushAll vs).mem (slot (rsp0 &&& ~~~15) i) = (interruptFrame c).getD i 0 := by
  rw [word_pushAll_of_apart, hmem, word_setWord_of_apart (h i (by omega)).symm]
  · have htop : (c.set .rsp (rsp0 &&& ~~~15)).reg .rsp = rsp0 &&& ~~~15 := c.set_reg_self ..
    have hword : word ((c.set .rsp (rsp0 &&& ~~~15)).pushAll (interruptFrame c)).mem
        (slot ((c.set .rsp (rsp0 &&& ~~~15)).reg .rsp) i) = (interruptFrame c).getD i 0 :=
      word_pushAll (by simp [interruptFrame]) hi
    rwa [htop] at hword
  · intro j hj
    rw [hrsp, slot_sub_words]
    exact apart_slot (by omega) (by omega) (by omega)

/-- The first five instructions behind the registers: the address of the frame is in the word that
`gs` names, and the stack pointer of the user is in the frame. -/
theorem run_frame_head {b : Cpu} {fp rsp : BitVec 64} (hfp : word b.mem b.gsBase = fp)
    (h24 : word b.mem (fp + 24) = rsp) :
    run o [.mov .rax (.gs 0), .mov .rbx (.mem .rax 24), .push (.reg .rbx), .push (.imm 0x1B),
      .push (.imm 0x23)] b = ((b.pushAll [rsp, 0x1B, 0x23]).set .rax fp).set .rbx rsp := by
  simp only [BitVec.ofNat_eq_ofNat] at h24
  simp [X86.exec, Cpu.value, Cpu.push_set, hfp, h24]

/-- The last four instructions before the call, with the address of the frame in `rax`. -/
theorem run_frame_tail {b : Cpu} {rflags rip : BitVec 64}
    (h16 : word b.mem (b.reg .rax + 16) = rflags) (h0 : word b.mem (b.reg .rax + 0) = rip) :
    run o [.mov .r11 (.mem .rax 16), .mov .rcx (.mem .rax 0), .push (.reg .r11),
      .push (.reg .rcx)] b =
      ((b.pushAll [rflags, rip]).set .r11 rflags).set .rcx rip := by
  have h0' : word b.mem (b.reg .rax) = rip := by
    rw [← h0]
    exact congrArg (word b.mem) (BitVec.add_zero _).symm
  simp only [BitVec.ofNat_eq_ofNat] at h16
  simp [X86.exec, Cpu.value, Cpu.push_set, h16, h0']

/-- `timer_inter_1` group by group: the entry, the pushes of the registers, the two groups that read
the frame of the processor, and the call. -/
theorem timerInter1_eq : run o timerInter1 c =
    run o callRust (run o [.mov .r11 (.mem .rax 16), .mov .rcx (.mem .rax 0), .push (.reg .r11),
      .push (.reg .rcx)] (run o [.mov .rax (.gs 0), .mov .rbx (.mem .rax 24), .push (.reg .rbx),
        .push (.imm 0x1B), .push (.imm 0x23)]
          ((run o [.cli, .swapgs, .storeGs 0 .rsp] c).pushAll
            (savedRegs.map (run o [.cli, .swapgs, .storeGs 0 .rsp] c).reg)))) := by
  rw [← run_push_regs (o := o) savedRegs (by decide)]
  simp only [← run_append]
  rfl

/-- **What `timer_inter_1` saves** when it interrupts user code: the registers as they were, and the
selectors of user mode as constants. -/
theorem timerInter1_saves (h : ApartStack (rsp0 &&& ~~~15) 20 c.kernelGsBase) :
    TaskProcState.read (run o timerInter1 (c.interrupt handler rsp0 kernelCs)).mem
        ((run o timerInter1 (c.interrupt handler rsp0 kernelCs)).reg .rdi) =
      { procState c with codeSeg := 0x23, dataSeg := 0x1b } := by
  rw [timerInter1_eq]
  set fp := (rsp0 &&& ~~~15) - BitVec.ofNat 64 (8 * 5) with hfp
  have hersp := c.interrupt_rsp handler rsp0 kernelCs
  have hegs := c.interrupt_kernelGsBase handler rsp0 kernelCs
  set k := run o [.cli, .swapgs, .storeGs 0 .rsp] (c.interrupt handler rsp0 kernelCs) with hk
  have hgs : k.gsBase = c.kernelGsBase := hegs
  have hrsp : k.reg .rsp = fp := hersp
  have hkmem : k.mem = setWord (c.interrupt handler rsp0 kernelCs).mem c.kernelGsBase
      ((c.interrupt handler rsp0 kernelCs).reg .rsp) := by
    rw [← hegs]
    exact congrArg (setWord _ · _) (BitVec.add_zero _)
  have hframe {vs : List (BitVec 64)} (hvs : vs.length ≤ 20) {i : ℕ} (hi : i < 5) :
      word (k.pushAll vs).mem (fp + BitVec.ofNat 64 (8 * i)) =
        (interruptFrame c).getD (5 - 1 - i) 0 := by
    rw [hfp, sub_words_add _ hi]
    exact word_interruptFrame h hkmem hrsp hvs (by omega)
  set base := k.pushAll (savedRegs.map k.reg) with hbase
  -- the address of the frame is still in its word
  have hword : word base.mem base.gsBase = fp := by
    rw [hbase, Cpu.pushAll_gsBase, hgs, word_pushAll_of_apart, hkmem, word_setWord_self, hersp]
    intro i hi
    have hi' : i < 15 := hi
    rw [hrsp, hfp, slot_sub_words]
    exact h (i + 5) (by omega)
  have hold : word base.mem (fp + 24) = c.reg .rsp :=
    hframe (i := 3) (by simp [savedRegs]) (by decide)
  rw [run_frame_head hword hold]
  set b := ((base.pushAll [c.reg .rsp, 0x1B, 0x23]).set .rax fp).set .rbx (c.reg .rsp) with hb
  have hbrax : b.reg .rax = fp := by
    rw [hb, Cpu.set_reg_of_ne _ _ (by decide), Cpu.set_reg_self]
  have hbmem : b.mem = (k.pushAll (savedRegs.map k.reg ++ [c.reg .rsp, 0x1B, 0x23])).mem := by
    rw [hb, Cpu.set_mem, Cpu.set_mem, hbase, Cpu.pushAll_append]
  have h16 : word b.mem (b.reg .rax + 16) = c.rflags := by
    rw [hbrax, hbmem]
    exact hframe (i := 2) (by simp [savedRegs]) (by decide)
  have h0 : word b.mem (b.reg .rax + 0) = c.rip := by
    rw [hbrax, hbmem]
    exact hframe (i := 0) (by simp [savedRegs]) (by decide)
  rw [run_frame_tail h16 h0, hb, Cpu.pushAll_set _ _ (by decide), Cpu.pushAll_set _ _ (by decide)]
  have hwords : (base.pushAll [c.reg .rsp, 0x1B, 0x23]).pushAll [c.rflags, c.rip] =
      k.pushAll (TaskProcState.words
        { procState c with codeSeg := 0x23, dataSeg := 0x1b }).reverse := by
    rw [hbase, ← Cpu.pushAll_append, ← Cpu.pushAll_append]
    rfl
  rw [hwords]
  refine read_of_pushes (c := k) ?_ ?_
  · simp only [Cpu.set_mem]
  · simp only [Cpu.set_reg_of_ne, ne_eq, reduceCtorEq, not_false_eq_true]

end Timer

/-! ## Restoring -/

/-- What `apply` runs in: the address of the structure in `rdi`, the segments in `rax` and `rcx`,
and a stack whose next five words are not those of the structure. -/
structure Applies (k : Cpu) (p : BitVec 64) (s : TaskProcState) : Prop where
  rdi : k.reg .rdi = p
  rax : k.reg .rax = s.dataSeg
  rcx : k.reg .rcx = s.codeSeg
  state : TaskProcState.read k.mem p = s
  apart : ∀ i < 20, ApartStack (k.reg .rsp) 5 (p + BitVec.ofNat 64 (8 * i))

/-- The frame that `apply` pushes for `iretq`. -/
def iretFrame (s : TaskProcState) : List (BitVec 64) :=
  [s.dataSeg, s.rsp, s.rflags, s.codeSeg, s.rip]

section Restore

variable {k : Cpu} {p : BitVec 64} {s : TaskProcState}

/-- The structure is still there after up to five pushes. -/
theorem Applies.read_pushAll (h : Applies k p s) {b : Cpu} (hmem : b.mem = k.mem)
    (hrsp : b.reg .rsp = k.reg .rsp) {vs : List (BitVec 64)} (hvs : vs.length ≤ 5) :
    TaskProcState.read (b.pushAll vs).mem p = s := by
  rw [← h.state, ← hmem]
  refine TaskProcState.read_congr fun i hi => word_pushAll_of_apart ?_
  rw [hrsp]
  exact (h.apart i hi).mono hvs

/-- The frame is pushed. -/
theorem Applies.run_pushes (h : Applies k p s) {b : Cpu} (hmem : b.mem = k.mem)
    (hreg : b.reg = k.reg) :
    run o [.push (.reg .rax), .push (.mem .rdi 32), .push (.mem .rdi 8), .push (.reg .rcx),
      .push (.mem .rdi 0)] b = b.pushAll (iretFrame s) := by
  have hread {vs : List (BitVec 64)} (hvs : vs.length ≤ 5) :
      TaskProcState.read (b.pushAll vs).mem p = s :=
    h.read_pushAll hmem (congrFun hreg .rsp) hvs
  have hrsp : word (b.pushAll [s.dataSeg]).mem (p + 32) = s.rsp :=
    TaskProcState.read_rsp.symm.trans (by rw [hread (by simp)])
  have hrflags : word (b.pushAll [s.dataSeg, s.rsp]).mem (p + 8) = s.rflags :=
    TaskProcState.read_rflags.symm.trans (by rw [hread (by simp)])
  have hrip : word (b.pushAll [s.dataSeg, s.rsp, s.rflags, s.codeSeg]).mem (p + 0) = s.rip :=
    TaskProcState.read_rip.symm.trans (by rw [hread (by simp)])
  have hrax : b.reg .rax = s.dataSeg := by rw [hreg, h.rax]
  have hrcx : b.reg .rcx = s.codeSeg := by rw [hreg, h.rcx]
  have hrdi : b.reg .rdi = p := by rw [hreg, h.rdi]
  simp only [Cpu.pushAll_cons, Cpu.pushAll_nil] at hrsp hrflags hrip
  simp only [run_cons, run_nil, X86.exec, Cpu.value, iretFrame, Cpu.pushAll_cons, Cpu.pushAll_nil,
    Cpu.push_reg_of_ne _ (show Reg.rdi ≠ .rsp by decide),
    Cpu.push_reg_of_ne _ (show Reg.rcx ≠ .rsp by decide), hrax, hrcx, hrdi, hrsp, hrflags, hrip]

/-- The loads fill every register but the stack pointer. -/
theorem run_loadRegs (c : Cpu) : run o loadRegs c = { c with
    reg := Function.update (TaskProcState.read c.mem (c.reg .rdi)).regs .rsp (c.reg .rsp) } := by
  have hreg : (run o loadRegs c).reg =
      Function.update (TaskProcState.read c.mem (c.reg .rdi)).regs .rsp (c.reg .rsp) := by
    funext r
    cases r <;> rfl
  rw [← hreg]
  rfl

/-- **`apply` restores the structure**, with the selectors cut to 16 bits. The structure is read
while words are pushed, which is why it must not be on the stack in use. -/
theorem apply_restores (h : Applies k p s) : procState (run o applyAsm k) =
    { s with
      codeSeg := (s.codeSeg.setWidth 16).setWidth 64
      dataSeg := (s.dataSeg.setWidth 16).setWidth 64 } := by
  set b := run o [.movSeg .ds .rax, .movSeg .es .rax, .movSeg .fs .rax, .movSeg .gs .rax] k with hb
  have hmem : b.mem = k.mem := rfl
  have hreg : b.reg = k.reg := rfl
  set c := b.pushAll (iretFrame s) with hc
  have hrdi : c.reg .rdi = p := by
    rw [hc, Cpu.pushAll_reg_of_ne _ (by decide), hreg, h.rdi]
  have hread : TaskProcState.read c.mem p = s :=
    h.read_pushAll hmem (congrFun hreg .rsp) (by simp [iretFrame])
  -- the frame from the word pushed last
  have hframe {i : ℕ} (hi : i < 5) : word c.mem (c.reg .rsp + BitVec.ofNat 64 (8 * i)) =
      (iretFrame s).getD (5 - 1 - i) 0 := by
    have hlen : (iretFrame s).length = 5 := rfl
    rw [hc, Cpu.pushAll_rsp, hlen, sub_words_add _ hi,
      word_pushAll (by rw [hlen]; decide) (by rw [hlen]; omega)]
  have hrun : run o applyAsm k = X86.exec o { c with
      reg := Function.update s.regs .rsp (c.reg .rsp) } .iretq := by
    rw [applyAsm, run_append, run_append, run_append, ← hb, h.run_pushes hmem hreg, ← hc,
      run_loadRegs, hrdi, hread]
    rfl
  have hrip : word c.mem (c.reg .rsp) = s.rip := by
    simpa [iretFrame] using hframe (i := 0) (by decide)
  have hcs : word c.mem (c.reg .rsp + 8) = s.codeSeg := hframe (i := 1) (by decide)
  have hrflags : word c.mem (c.reg .rsp + 16) = s.rflags := hframe (i := 2) (by decide)
  have hrsp : word c.mem (c.reg .rsp + 24) = s.rsp := hframe (i := 3) (by decide)
  have hss : word c.mem (c.reg .rsp + 32) = s.dataSeg := hframe (i := 4) (by decide)
  rw [hrun]
  simp only [X86.exec, procState, Function.update_self, hrip, hcs, hrflags, hrsp, hss]
  rfl

end Restore

/-! ## Both -/

/-- **A timer interrupt does not change the registers of user code.**  Whatever the core does in
between, once `apply` runs on the structure that `timer_inter_1` has built, the general-purpose
registers, `RIP`, `RFLAGS` and both selectors are those of the interrupted state; and the selectors
written into the listing are those of the table that `register` builds. -/
theorem timer_context_roundtrip {o u : Open} {c k : Cpu} {p handler rsp0 : BitVec 64}
    {kernelCs : BitVec 16} {s : TaskProcState} (hcs : c.cs = 0x23) (hss : c.ss = 0x1B)
    (hscratch : ApartStack (rsp0 &&& ~~~15) 20 c.kernelGsBase)
    (hs : s = TaskProcState.read (run o timerInter1 (c.interrupt handler rsp0 kernelCs)).mem
      ((run o timerInter1 (c.interrupt handler rsp0 kernelCs)).reg .rdi))
    (happlies : Applies k p s) :
    (run u applyAsm k).reg = c.reg ∧ (run u applyAsm k).rip = c.rip ∧
      (run u applyAsm k).rflags = c.rflags ∧ (run u applyAsm k).cs = c.cs ∧
      (run u applyAsm k).ss = c.ss ∧
      ∀ tssAdr kstack nmistack dfstack, ∃ tss kgdt,
        KernelGlobalDescriptorTable.register tssAdr kstack nmistack dfstack = .ok (tss, kgdt) ∧
          s.codeSeg = kgdt.ucodeSeg.setWidth 64 ∧ s.dataSeg = kgdt.udataSeg.setWidth 64 := by
  rw [timerInter1_saves hscratch] at hs
  -- the state that is saved and the state after the `iretq` are the same record
  have hstate : procState (run u applyAsm k) = procState c := by
    rw [apply_restores happlies, hs]
    simp only [procState, hcs, hss]
    rfl
  obtain ⟨hreg, hrip, hrflags, hcs', hss'⟩ := eq_of_procState hstate
  refine ⟨hreg, hrip, hrflags, hcs', hss', fun tssAdr kstack nmistack dfstack => ?_⟩
  obtain ⟨kgdt, hregister, -, -, hudata, hucode⟩ :=
    register_selectors tssAdr kstack nmistack dfstack
  refine ⟨_, kgdt, hregister, ?_, ?_⟩
  · rw [hs, hucode]
    rfl
  · rw [hs, hudata]
    rfl

/-- User code on a core whose scratch words are at `0x1000`. -/
def userCpu : Cpu where
  reg r := if r = .rsp then 0x700000 else if r = .rax then 5 else 7
  rip := 0x400000
  rflags := 0x202
  cs := 0x23
  ss := 0x1B
  seg _ := 0x1B
  gsBase := 0
  kernelGsBase := 0x1000
  mem _ := 0

/-- Flags are kept, and the addresses of the call are zero. -/
def plainOpen : Open := ⟨id, 0, 0⟩

/-- A core about to apply a state that is in memory below `0x700000`. -/
def applyingCpu (s : TaskProcState) : Cpu :=
  { userCpu.pushAll s.words.reverse with
    reg r := match r with
      | .rdi => 0x700000 - 160
      | .rax => s.dataSeg
      | .rcx => s.codeSeg
      | _ => 0x8000 }

/-- Every state can be applied. -/
theorem applyingCpu_applies (s : TaskProcState) :
    Applies (applyingCpu s) (0x700000 - 160) s where
  rdi := rfl
  rax := rfl
  rcx := rfl
  state := by
    have hrsp : userCpu.reg .rsp = 0x700000 := rfl
    simp only [applyingCpu]
    rw [← hrsp, read_pushAll]
  apart := by
    have hrsp : (applyingCpu s).reg .rsp = 0x8000 := rfl
    rw [hrsp]
    unfold ApartStack
    decide

/-- The scratch word of `userCpu` is far from the stack. -/
theorem userCpu_scratch : ApartStack (0x10000 &&& ~~~15) 20 userCpu.kernelGsBase := by
  unfold ApartStack
  decide

theorem timer_context_userCpu :
    userCpu.cs = 0x23 ∧ userCpu.ss = 0x1B ∧
      ApartStack (0x10000 &&& ~~~15) 20 userCpu.kernelGsBase ∧
      ∃ k p s, s = TaskProcState.read
          (run plainOpen timerInter1 (userCpu.interrupt 0 0x10000 0x08)).mem
          ((run plainOpen timerInter1 (userCpu.interrupt 0 0x10000 0x08)).reg .rdi) ∧
        Applies k p s ∧ (run plainOpen applyAsm k).reg = userCpu.reg ∧
        (run plainOpen applyAsm k).rip = 0x400000 := by
  obtain ⟨hreg, hrip, -⟩ := timer_context_roundtrip (o := plainOpen) (u := plainOpen) rfl rfl
    userCpu_scratch rfl (applyingCpu_applies _)
  exact ⟨rfl, rfl, userCpu_scratch, _, _, _, rfl, applyingCpu_applies _, hreg, hrip⟩

end HeliumOS.Proc
