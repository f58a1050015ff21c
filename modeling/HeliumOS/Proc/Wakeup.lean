import Mathlib.Data.Nat.ModEq
import HeliumOS.Lib.NodeTable
import HeliumOS.Proc.Task

/-!
# Waking Up the Cores

`init::wakeup` of `proc/mod.rs`: every core puts its `ProcInfo` into `PROC_TABLE`, and then stores
the address of the field `basic` of its entry in `KERNEL_GS_BASE`.  From there the assembly of
`syscall_handle_1` and `event_loop` loads the kernel stack pointer.

`PROC_TABLE` is a `BTreeMap`, of which only the layout of its nodes is used here: see `NodeTable`.
The two parts of `wakeup` are two steps, because the lock is released between them and other cores
may come in.

- `kernelRsp_own_iff`: the stored address stays that of the core, and the stack pointer that is
  loaded stays its own, exactly if no later insertion displaces its entry.
- `second_core_shares_stack`: two cores that wake up in the wrong order share one stack.
-/

namespace HeliumOS.Proc

open HeliumOS.Lib

/-! ## Definitions -/

/-- `BasicProcInfo`. -/
structure BasicProcInfo where
  saveUserRsp : ℕ
  kernelRsp : ℕ

/-- An entry of `PROC_TABLE`: a `ProcInfo` with its field `basic`. -/
structure ProcEntry where
  info : ProcInfo
  basic : BasicProcInfo

/-- `init::stack`: the end of the stack that a local variable is on. -/
def stack (stackSize xPtr : ℕ) : ℕ :=
  if 2 ^ 64 - stackSize ≤ xPtr then 0 else alignUp xPtr stackSize

/-- The entry that `wakeup` inserts. -/
def ProcEntry.new (stack : ℕ) : ProcEntry := ⟨⟨0, none, 0, none⟩, ⟨0, stack⟩⟩

/-- `PROC_TABLE`, and the `KERNEL_GS_BASE` of each core that has set it: the address of an entry
stands for that of its field. -/
structure Waking where
  table : NodeTable ℕ ProcEntry
  kernelGsBase : ℕ → Option (ℕ × ℕ)

/-- No core has woken up. -/
def Waking.boot : Waking := ⟨.empty, fun _ => none⟩

/-- The two parts of `wakeup`.  Before the entry is placed into a node, nodes may be split and
added. -/
inductive WakeEvent where
  | insert (id : ℕ) (moves : List (TableMove ℕ ProcEntry)) (node : ℕ)
  | publish (id : ℕ)

/-- What an event does to the table, with the kernel stacks of the cores. -/
def WakeEvent.moves (kstack : ℕ → ℕ) : WakeEvent → List (TableMove ℕ ProcEntry)
  | .insert id moves node => moves ++ [.place node id (.new (kstack id))]
  | .publish _ => []

/-- The steps of the cores.  An APIC id has eight bits. -/
inductive WakeStep (kstack : ℕ → ℕ) : Waking → WakeEvent → Waking → Prop where
  | insert {w : Waking} {table : NodeTable ℕ ProcEntry} {id node : ℕ}
      {moves : List (TableMove ℕ ProcEntry)}
      (hid : id ≤ 255) (hmoves : ∀ n k entry, .place n k entry ∉ moves)
      (hrun : Run NodeTable.Step w.table (moves ++ [.place node id (.new (kstack id))]) table) :
      WakeStep kstack w (.insert id moves node) { w with table }
  | publish {w : Waking} {id : ℕ} {adr : ℕ × ℕ} {entry : ProcEntry}
      (hnew : w.kernelGsBase id = none)
      (hadr : w.table.slot adr = some (id, entry)) :
      WakeStep kstack w (.publish id)
        { w with kernelGsBase := Function.update w.kernelGsBase id (some adr) }

/-- `mov rsp, gs:[8]` between two `swapgs`. -/
def Waking.loadKernelRsp (w : Waking) (id : ℕ) : Option ℕ := do
  let adr ← w.kernelGsBase id
  let (_, entry) ← w.table.slot adr
  return entry.basic.kernelRsp

/-- The event changes the address of the entry of a core, which is in the given node. -/
def WakeEvent.Displaces (node id : ℕ) : WakeEvent → Prop
  | .insert id' moves node' => (∃ move ∈ moves, move.Displaces node id) ∨ (node' = node ∧ id' < id)
  | .publish _ => False

/-! ## Stacks -/

/-- Every core runs on a stack of its own. -/
structure OwnStacks (stackSize : ℕ) (xPtr : ℕ → ℕ) : Prop where
  dvd : stackSize ∣ 2 ^ 64
  inside : ∀ id ≤ 255, xPtr id < 2 ^ 64 ∧ xPtr id % stackSize ≠ 0
  apart : ∀ id ≤ 255, ∀ id' ≤ 255, xPtr id / stackSize = xPtr id' / stackSize → id = id'

/-- The stacks are numbered from the bottom; the last one ends at address zero. -/
theorem stack_eq {stackSize xPtr c : ℕ} (hc : 2 ^ 64 = stackSize * c) (hptr : xPtr < 2 ^ 64)
    (hin : xPtr % stackSize ≠ 0) :
    stack stackSize xPtr = stackSize * ((xPtr / stackSize + 1) % c) := by
  have hpos : 0 < stackSize := Nat.pos_of_dvd_of_pos ⟨c, hc⟩ (by decide)
  have hdiv := Nat.div_add_mod xPtr stackSize
  have hmod := Nat.mod_lt xPtr hpos
  have hsucc : stackSize * (xPtr / stackSize + 1) = stackSize * (xPtr / stackSize) + stackSize :=
    Nat.mul_succ ..
  have hle : xPtr / stackSize + 1 ≤ c := Nat.div_lt_of_lt_mul (hc ▸ hptr)
  unfold stack
  -- the last stack is recognised by its distance from the end of the address space
  split_ifs with htop
  · have hlast : c < xPtr / stackSize + 1 + 1 := by
      apply Nat.lt_of_mul_lt_mul_left (a := stackSize)
      rw [Nat.mul_succ]
      omega
    rw [show xPtr / stackSize + 1 = c by omega, Nat.mod_self, Nat.mul_zero]
  · have hup : (xPtr + (stackSize - 1)) / stackSize = xPtr / stackSize + 1 := by
      apply Nat.div_eq_of_lt_le
      · rw [Nat.mul_comm]
        omega
      · rw [Nat.mul_comm, Nat.mul_succ]
        omega
    have hlt : xPtr / stackSize + 1 < c := by
      apply Nat.lt_of_mul_lt_mul_left (a := stackSize)
      omega
    rw [alignUp, hup, Nat.mod_eq_of_lt hlt, Nat.mul_comm]

/-- Different cores find different stacks. -/
theorem OwnStacks.injOn {stackSize : ℕ} {xPtr : ℕ → ℕ} (h : OwnStacks stackSize xPtr) :
    Set.InjOn (fun id => stack stackSize (xPtr id)) {id | id ≤ 255} := by
  intro id hid id' hid' heq
  obtain ⟨hlt, hin⟩ := h.inside id hid
  obtain ⟨hlt', hin'⟩ := h.inside id' hid'
  obtain ⟨c, hc⟩ := h.dvd
  have hpos : 0 < stackSize := Nat.pos_of_dvd_of_pos h.dvd (by decide)
  have hle : xPtr id / stackSize < c := Nat.div_lt_of_lt_mul (hc ▸ hlt)
  have hle' : xPtr id' / stackSize < c := Nat.div_lt_of_lt_mul (hc ▸ hlt')
  apply h.apart id hid id' hid'
  dsimp only at heq
  rw [stack_eq hc hlt hin, stack_eq hc hlt' hin'] at heq
  have hmod : (xPtr id / stackSize + 1) ≡ (xPtr id' / stackSize + 1) [MOD c] :=
    Nat.eq_of_mul_eq_mul_left hpos heq
  exact Nat.ModEq.eq_of_lt_of_lt (Nat.ModEq.add_right_cancel' 1 hmod) hle hle'

/-! ## Pointers -/

section Pointers

variable {kstack : ℕ → ℕ} {w w' : Waking} {e : WakeEvent} {es : List WakeEvent} {id node : ℕ}

theorem displaces_iff : e.Displaces node id ↔ ∃ move ∈ e.moves kstack, move.Displaces node id := by
  cases e with
  | insert id' moves node' =>
    simp only [WakeEvent.Displaces, WakeEvent.moves, List.mem_append, List.mem_singleton]
    constructor
    · rintro (⟨move, hmem, hdisp⟩ | hdisp)
      · exact ⟨move, .inl hmem, hdisp⟩
      · exact ⟨_, .inr rfl, hdisp⟩
    · rintro ⟨move, hmem | rfl, hdisp⟩
      · exact .inl ⟨move, hmem, hdisp⟩
      · exact .inr hdisp
  | publish => simp [WakeEvent.Displaces, WakeEvent.moves]

theorem WakeStep.table_run (h : WakeStep kstack w e w') :
    Run NodeTable.Step w.table (e.moves kstack) w'.table := by
  cases h with
  | insert _ _ hrun => exact hrun
  | publish => exact .nil _

/-- The table sees of a run the moves of all insertions. -/
theorem table_run (h : Run (WakeStep kstack) w es w') :
    Run NodeTable.Step w.table (es.flatMap (WakeEvent.moves kstack)) w'.table := by
  induction h with
  | nil => exact .nil _
  | snoc _ hstep ih =>
    rw [List.flatMap_append, List.flatMap_singleton]
    exact ih.append hstep.table_run

/-- Every entry holds the stack of its own core. -/
def Stacked (kstack : ℕ → ℕ) (w : Waking) : Prop :=
  ∀ n, ∀ x ∈ w.table.node n, x.1 ≤ 255 ∧ x.2.basic.kernelRsp = kstack x.1

theorem WakeStep.stacked (h : WakeStep kstack w e w') (hw : Stacked kstack w) :
    Stacked kstack w' := by
  intro n x hx
  cases h with
  | insert hid hmoves hrun =>
    rcases NodeTable.mem_of_run hrun hx with ⟨m, hold⟩ | ⟨m, hplaced⟩
    · exact hw m x hold
    · rcases List.mem_append.mp hplaced with hmem | hmem
      · exact absurd hmem (hmoves m x.1 x.2)
      · obtain ⟨-, hkey, hval⟩ := TableMove.place.inj (List.mem_singleton.mp hmem)
        rw [hkey, hval]
        exact ⟨hid, rfl⟩
  | publish => exact hw n x hx

theorem stacked_of_run (h : Run (WakeStep kstack) .boot es w) : Stacked kstack w :=
  h.preserves (fun _ _ hx => absurd hx List.not_mem_nil) fun _ _ _ hw hstep => hstep.stacked hw

/-- A core stores its address once. -/
theorem WakeStep.kernelGsBase_eq {adr : ℕ × ℕ} (h : WakeStep kstack w e w')
    (hadr : w.kernelGsBase id = some adr) : w'.kernelGsBase id = some adr := by
  cases h with
  | insert => exact hadr
  | @publish id' adr' entry hnew =>
    have hne : id ≠ id' := by
      rintro rfl
      rw [hnew] at hadr
      cases hadr
    exact (Function.update_of_ne hne ..).trans hadr

/-- Through an address the own stack pointer is loaded exactly if the own entry is there. -/
theorem loadKernelRsp_eq_iff {adr : ℕ × ℕ} (hinj : Set.InjOn kstack {id | id ≤ 255})
    (hw : Stacked kstack w) (hadr : w.kernelGsBase id = some adr) (hid : id ≤ 255) :
    w.loadKernelRsp id = some (kstack id) ↔ ∃ entry, w.table.slot adr = some (id, entry) := by
  simp only [Waking.loadKernelRsp, hadr]
  cases hslot : w.table.slot adr with
  | none => simp [hslot]
  | some x =>
    obtain ⟨id', entry⟩ := x
    obtain ⟨hid', hrsp⟩ := hw adr.1 _ (List.mem_of_getElem? hslot)
    have hsame : entry.basic.kernelRsp = kstack id ↔ id' = id := by
      rw [hrsp]
      exact hinj.eq_iff hid' hid
    simpa [hslot] using hsame

/-- Whatever the order in which the cores wake up: the address that a core has stored is that of its
own entry, and the stack pointer that the assembly loads through it is its own, exactly if nothing
has displaced the entry since it was stored. -/
theorem kernelRsp_own_iff {stackSize : ℕ} {xPtr : ℕ → ℕ} {es₁ es₂ : List WakeEvent}
    (hstacks : OwnStacks stackSize xPtr)
    (hrun : Run (WakeStep fun id => stack stackSize (xPtr id)) .boot
      (es₁ ++ .publish id :: es₂) w) :
    ∃ adr, w.kernelGsBase id = some adr ∧
      ((∃ entry, w.table.slot adr = some (id, entry)) ↔ ∀ e ∈ es₂, ¬ e.Displaces adr.1 id) ∧
      (w.loadKernelRsp id = some (stack stackSize (xPtr id)) ↔
        ∀ e ∈ es₂, ¬ e.Displaces adr.1 id) := by
  set kstack := fun id => stack stackSize (xPtr id) with hkstack
  obtain ⟨w₁, hrun₁, hrest⟩ := hrun.exists_of_append
  obtain ⟨w₂, hpublish, hrun₂⟩ := hrest.exists_of_cons
  cases hpublish with
  | @publish _ adr entry hnew hslot =>
    have hbase : w.kernelGsBase id = some adr :=
      hrun₂.preserves (I := fun w => w.kernelGsBase id = some adr) (Function.update_self ..)
        fun _ _ _ h hstep => hstep.kernelGsBase_eq h
    have hid : id ≤ 255 := (stacked_of_run hrun₁ adr.1 _ (List.mem_of_getElem? hslot)).1
    -- the moves of the later events, seen by the table
    have hown : (∃ entry, w.table.slot adr = some (id, entry)) ↔
        ∀ e ∈ es₂, ¬ e.Displaces adr.1 id := by
      rw [NodeTable.holds_iff (table_run hrun₂) hslot]
      constructor
      · rintro hnone e he hdisp
        obtain ⟨move, hmove, hdisp⟩ := displaces_iff.mp hdisp
        exact hnone move (List.mem_flatMap.mpr ⟨e, he, hmove⟩) hdisp
      · rintro hnone move hmem hdisp
        obtain ⟨e, he, hmove⟩ := List.mem_flatMap.mp hmem
        exact hnone e he (displaces_iff.mpr ⟨move, hmove, hdisp⟩)
    refine ⟨adr, hbase, hown, ?_⟩
    rw [← hown]
    exact loadKernelRsp_eq_iff hstacks.injOn (stacked_of_run hrun) hbase hid

end Pointers

/-! ## Two cores -/

/-- The first core makes the root node, and the second one inserts into it. -/
def wakeUpBoth (a b : ℕ) : List WakeEvent :=
  [.insert a [.grow 0] 0, .publish a, .insert b [] 0, .publish b]

/-- Two cores wake up, one after the other. -/
theorem wakeUpBoth_run (kstack : ℕ → ℕ) {a b : ℕ} (ha : a ≤ 255) (hb : b ≤ 255) (hab : a ≠ b) :
    ∃ w, Run (WakeStep kstack) .boot (wakeUpBoth a b) w ∧
      w.table.node 0 = insertEntry (b, .new (kstack b)) [(a, .new (kstack a))] ∧
      w.kernelGsBase a = some (0, 0) ∧ w.kernelGsBase b = some (0, if b < a then 0 else 1) := by
  set t₀ : NodeTable ℕ ProcEntry := NodeTable.empty.grow 0 with ht₀
  have habsent : t₀.Absent a := fun _ _ hx => absurd hx List.not_mem_nil
  set t₁ := t₀.place 0 (a, .new (kstack a)) Nat.one_pos habsent with ht₁
  have hnode : t₁.node 0 = [(a, .new (kstack a))] := NodeTable.node_place
  -- the two ids are different
  have habsent₁ : t₁.Absent b := by
    intro n x hx
    rcases NodeTable.mem_placed hx with ⟨-, rfl⟩ | hx
    · exact hab
    · exact absurd hx List.not_mem_nil
  set t₂ := t₁.place 0 (b, .new (kstack b)) Nat.one_pos habsent₁ with ht₂
  have hnode₂ : t₂.node 0 = insertEntry (b, .new (kstack b)) [(a, .new (kstack a))] :=
    NodeTable.node_place.trans (by rw [hnode])
  have hrun₁ : Run NodeTable.Step .empty [.grow 0, .place 0 a (.new (kstack a))] t₁ :=
    (Run.single (.grow 0)).snoc (.place (e := (a, _)) Nat.one_pos habsent)
  have hinsert₁ : WakeStep kstack .boot (.insert a [.grow 0] 0) ⟨t₁, fun _ => none⟩ :=
    .insert ha (by simp) hrun₁
  have hpublish₁ : WakeStep kstack ⟨t₁, fun _ => none⟩ (.publish a)
      ⟨t₁, Function.update (fun _ => none) a (some (0, 0))⟩ :=
    .publish rfl (congrArg (·[0]?) hnode)
  have hinsert₂ : WakeStep kstack ⟨t₁, Function.update (fun _ => none) a (some (0, 0))⟩
      (.insert b [] 0) ⟨t₂, Function.update (fun _ => none) a (some (0, 0))⟩ :=
    .insert hb (by simp) (Run.single (.place (e := (b, _)) Nat.one_pos habsent₁))
  have hslot : t₂.slot (0, if b < a then 0 else 1) = some (b, .new (kstack b)) := by
    rw [NodeTable.slot, hnode₂, insertEntry]
    split_ifs <;> rfl
  refine ⟨_, (((Run.single hinsert₁).snoc hpublish₁).snoc hinsert₂).snoc
    (.publish ?_ hslot), hnode₂, ?_, Function.update_self ..⟩
  · simp [hab.symm]
  · simp [hab]

/-- Stacks of one page each. -/
def pageStacks (id : ℕ) : ℕ := 0x1000 * id + 8

theorem ownStacks_pageStacks : OwnStacks 0x1000 pageStacks where
  dvd := by decide
  inside id hid := by
    unfold pageStacks
    omega
  apart id _ id' _ heq := by
    unfold pageStacks at heq
    omega

/-- Core 0 wakes up before core 1, and keeps its pointer. -/
theorem first_core_keeps_stack :
    OwnStacks 0x1000 pageStacks ∧
    ∃ w, Run (WakeStep fun id => stack 0x1000 (pageStacks id)) .boot (wakeUpBoth 0 1) w ∧
      w.loadKernelRsp 0 = some (stack 0x1000 (pageStacks 0)) := by
  obtain ⟨w, hrun, -⟩ :=
    wakeUpBoth_run (fun id => stack 0x1000 (pageStacks id)) (a := 0) (b := 1) (by decide)
      (by decide)
      (by decide)
  obtain ⟨adr, -, -, hrsp⟩ := kernelRsp_own_iff ownStacks_pageStacks
    (show Run (WakeStep _) .boot
      ([.insert 0 [.grow 0] 0] ++ .publish 0 :: [.insert 1 [] 0, .publish 1]) w from hrun)
  refine ⟨ownStacks_pageStacks, w, hrun, hrsp.mpr ?_⟩
  simp [WakeEvent.Displaces]

/-- Core 1 wakes up before core 0.  The entry of core 0 then takes the place of that of core 1, and
both cores load the stack pointer of core 0. -/
theorem second_core_shares_stack :
    OwnStacks 0x1000 pageStacks ∧
    ∃ w, Run (WakeStep fun id => stack 0x1000 (pageStacks id)) .boot (wakeUpBoth 1 0) w ∧
      (∃ adr, w.kernelGsBase 1 = some adr ∧ ¬ ∃ entry, w.table.slot adr = some (1, entry)) ∧
      w.loadKernelRsp 0 = some (stack 0x1000 (pageStacks 0)) ∧
      w.loadKernelRsp 1 = some (stack 0x1000 (pageStacks 0)) := by
  obtain ⟨w, hrun, hnode, hbase₁, hbase₀⟩ :=
    wakeUpBoth_run (fun id => stack 0x1000 (pageStacks id)) (a := 1) (b := 0) (by decide)
      (by decide)
      (by decide)
  -- the smaller id is at the front of the array
  have hslot : w.table.slot (0, 0) = some (0, .new (stack 0x1000 (pageStacks 0))) :=
    congrArg (·[0]?) hnode
  refine ⟨ownStacks_pageStacks, w, hrun, ⟨(0, 0), hbase₁, ?_⟩, ?_, ?_⟩
  · rintro ⟨entry, hown⟩
    rw [hslot] at hown
    cases hown
  · simp only [Waking.loadKernelRsp, hbase₀]
    rw [if_pos (by decide)]
    simp [hslot, ProcEntry.new]
  · simp [Waking.loadKernelRsp, hbase₁, hslot, ProcEntry.new]

end HeliumOS.Proc
