import HeliumOS.Mem.Alloc

/-!
# Growth of the Kernel Heap

`mem/heap.rs` and the heap branch of the page fault handler.

- `expand` maps pages from the faulting address on, and moves `HEAP_HEAD` by the same amount.  The
  two need not meet: the head starts at the start of the heap while its first 32 KiB are mapped
  already, and a fault can be anywhere above the head.
- `Plan` follows the addresses of the calls alone: the head, the number of expansions and the
  spans of pages mapped so far.  `Machine.expand_refines` connects the two.
- `expand_never_remaps_iff` and `expand_maps_address_iff` say for which sequences of calls no heap
  page is mapped twice, and for which every call leaves its page mapped.
-/

namespace HeliumOS.Mem.Heap

open HeliumOS.Lib HeliumOS.Lib.AllocProg HeliumOS.Mem.Virt

/-! ## The heap -/

/-- `heap::START`: the page at `0xFFFF808000000000`. -/
def START : Page := ⟨0xFFFF808000000, by decide⟩

/-- `heap::SIZE`. -/
def SIZE : ℕ := 2 * 1024 * 1024 * 1024

/-- `FRAG_SIZE`. -/
def FRAG_SIZE : ℕ := 32 * 1024

/-- The statics of `heap.rs`. -/
structure Statics where
  expandCount : ℕ
  head : ℕ
  deriving DecidableEq, Repr

/-- `EXPAND_COUNT` and `HEAP_HEAD` at boot. -/
def Statics.new : Statics := ⟨0, START.startAddress⟩

/-- `heap::init`, without the setup of the global allocator. -/
def init (vm : Vm) : Kernel Vm := valloc vm START (FRAG_SIZE / pageSize) .WRITABLE

/-- `heap::expand`. -/
def expand (heap : Statics) (vm : Vm) (adr : VirtAddr) : Kernel (Statics × Vm) := do
  if adr.val < heap.head then return (heap, vm)
  else do
    let page := Page.containing adr
    -- `heap_end - START`: the head plays no part in what is left
    let left := SIZE
    let count ← checkedAdd 64 Panic.expandOverflow heap.expandCount 1
    let maxExpandAmount ← checkedMul 64 Panic.expandOverflow count FRAG_SIZE
    let amount := if maxExpandAmount < left then maxExpandAmount else left
    let vm ← valloc vm page (amount / pageSize) .WRITABLE
    let head ← checkedAdd 64 Panic.headOverflow heap.head amount
    return (⟨count, head⟩, vm)

/-- `heap::is_heap`. -/
def IsHeap (adr : VirtAddr) : Prop :=
  START.startAddress ≤ adr.val ∧ adr.val < START.startAddress + SIZE

instance (adr : VirtAddr) : Decidable (IsHeap adr) := inferInstanceAs (Decidable (_ ∧ _))

/-- `page_fault` on a canonical address: the error code is read for its user bit, and every
address but one of the heap ends in a panic. -/
def pageFault (heap : Statics) (vm : Vm) (adr : VirtAddr) (userMode : Bool) :
    Kernel (Statics × Vm) :=
  if userMode = false ∧ IsHeap adr then expand heap vm adr else .fail .pageFault

/-- What the calls share: the statics of the heap, virtual memory and the frame allocator. -/
structure Machine where
  heap : Statics
  vm : Vm
  pmm : PhysicalFrameAllocator

/-- The machine after `heap::init`. -/
def boot (vm : Vm) (pmm : PhysicalFrameAllocator) : Except Panic Machine := do
  let (vm, pmm) ← (init vm).run PhysicalFrameAllocator.pool pmm
  .ok ⟨.new, vm, pmm⟩

/-- One call of `expand`; it holds the lock of `HEAP_HEAD` from start to end. -/
def Machine.expand (s : Machine) (adr : VirtAddr) : Except Panic Machine := do
  let ((heap, vm), pmm) ← (Heap.expand s.heap s.vm adr).run PhysicalFrameAllocator.pool s.pmm
  .ok ⟨heap, vm, pmm⟩

/-- One run of the page fault handler. -/
def Machine.pageFault (s : Machine) (adr : VirtAddr) (userMode : Bool) : Except Panic Machine := do
  let ((heap, vm), pmm) ←
    (Heap.pageFault s.heap s.vm adr userMode).run PhysicalFrameAllocator.pool s.pmm
  .ok ⟨heap, vm, pmm⟩

/-! ## Runs -/

/-- A call of `expand` that returned, with virtual memory before and after it. -/
structure Call where
  adr : VirtAddr
  before : Vm
  after : Vm

/-- A page of the heap. -/
def InHeap (q : Page) : Prop := START.num ≤ q.num ∧ q.num < START.num + SIZE / pageSize

/-- The call gives a heap page that was mapped another translation. -/
def Call.Remaps (c : Call) : Prop :=
  ∃ q translation, InHeap q ∧ c.before.translate q = some translation ∧
    c.after.translate q ≠ some translation

/-- After the call the page that contains its address is mapped. -/
def Call.MapsAddress (c : Call) : Prop := (c.after.translate (Page.containing c.adr)).isSome

/-- A sequence of calls of `expand`, each of which returned. -/
inductive Calls : Machine → List Call → Machine → Prop where
  | nil (s : Machine) : Calls s [] s
  | cons {s s₁ s' : Machine} {adr : VirtAddr} {calls : List Call} :
      s.expand adr = .ok s₁ → Calls s₁ calls s' → Calls s (⟨adr, s.vm, s₁.vm⟩ :: calls) s'

theorem Calls.nil_inv {s s' : Machine} {calls : List Call} (h : Calls s calls s')
    (hadrs : calls.map Call.adr = []) : calls = [] ∧ s' = s := by
  cases h with
  | nil => exact ⟨rfl, rfl⟩
  | cons => cases hadrs

theorem Calls.cons_inv {s s' : Machine} {calls : List Call} {adr : VirtAddr}
    {adrs : List VirtAddr} (h : Calls s calls s') (hadrs : calls.map Call.adr = adr :: adrs) :
    ∃ s₁ calls₁, calls = ⟨adr, s.vm, s₁.vm⟩ :: calls₁ ∧ s.expand adr = .ok s₁ ∧
      Calls s₁ calls₁ s' ∧ calls₁.map Call.adr = adrs := by
  cases h with
  | nil => cases hadrs
  | cons hexp hrest =>
    obtain ⟨rfl, htail⟩ := List.cons.inj hadrs
    exact ⟨_, _, rfl, hexp, hrest, htail⟩

/-- Cores fault on unmapped heap pages and run the handler some time later.  `pending` holds the
address that each core has faulted on and not handled yet. -/
inductive Faults : Machine → (ℕ → Option VirtAddr) → List Call → Machine → Prop where
  | nil (s : Machine) (pending : ℕ → Option VirtAddr) : Faults s pending [] s
  | fault {s s' : Machine} {pending : ℕ → Option VirtAddr} {calls : List Call} (core : ℕ)
      (adr : VirtAddr) :
      pending core = none → IsHeap adr → s.vm.translate (Page.containing adr) = none →
      Faults s (Function.update pending core (some adr)) calls s' → Faults s pending calls s'
  | handle {s s₁ s' : Machine} {pending : ℕ → Option VirtAddr} {adr : VirtAddr}
      {calls : List Call} (core : ℕ) :
      pending core = some adr → s.pageFault adr false = .ok s₁ →
      Faults s₁ (Function.update pending core none) calls s' →
      Faults s pending (⟨adr, s.vm, s₁.vm⟩ :: calls) s'

theorem Machine.expand_of_pageFault {s s' : Machine} {adr : VirtAddr} {userMode : Bool}
    (h : s.pageFault adr userMode = .ok s') : s.expand adr = .ok s' := by
  unfold Machine.pageFault Heap.pageFault at h
  split_ifs at h
  · exact h
  · simp [AllocProg.run] at h

/-- However the faults of the cores interleave, the handlers run one after the other: each holds the
lock of `HEAP_HEAD`. -/
theorem Faults.calls {s s' : Machine} {pending : ℕ → Option VirtAddr} {calls : List Call}
    (h : Faults s pending calls s') : Calls s calls s' := by
  induction h with
  | nil s _ => exact .nil s
  | fault _ _ _ _ _ _ ih => exact ih
  | handle _ _ hfault _ ih => exact .cons (Machine.expand_of_pageFault hfault) ih

/-! ## The plan of the heap -/

/-- A range of pages. -/
structure Span where
  start : ℕ
  pages : ℕ
  deriving DecidableEq, Repr

def Span.Covers (s : Span) (n : ℕ) : Prop := s.start ≤ n ∧ n < s.start + s.pages

instance (s : Span) (n : ℕ) : Decidable (s.Covers n) := inferInstanceAs (Decidable (_ ∧ _))

/-- Two spans share no page of the heap. -/
def Span.Apart (s t : Span) : Prop :=
  min (min (s.start + s.pages) (t.start + t.pages)) (START.num + SIZE / pageSize) ≤
    max (max s.start t.start) START.num

instance (s t : Span) : Decidable (s.Apart t) := inferInstanceAs (Decidable (_ ≤ _))

theorem Span.apart_iff {s t : Span} :
    s.Apart t ↔ ∀ n, START.num ≤ n → n < START.num + SIZE / pageSize → s.Covers n →
      ¬ t.Covers n := by
  simp only [Span.Apart, Span.Covers]
  constructor
  · intro h n hlo hhi hs ht
    omega
  · intro h
    by_contra hmeet
    -- the least common page is the larger of the two starts
    have hcommon := h (max (max s.start t.start) START.num)
    omega

/-- What is known of the heap from the addresses of the calls alone. -/
structure Plan where
  head : ℕ
  grown : ℕ
  spans : List Span
  deriving DecidableEq, Repr

namespace Plan

def Covers (p : Plan) (n : ℕ) : Prop := ∃ s ∈ p.spans, s.Covers n

instance (p : Plan) (n : ℕ) : Decidable (p.Covers n) :=
  inferInstanceAs (Decidable (∃ s ∈ p.spans, s.Covers n))

/-- After `heap::init`: 32 KiB are mapped, and the head is at the start of the heap. -/
def start : Plan := ⟨START.startAddress, 0, [⟨START.num, FRAG_SIZE / pageSize⟩]⟩

/-- The bytes of the next expansion: 32 KiB more than the last one, up to 2 GiB. -/
def amount (p : Plan) : ℕ := min ((p.grown + 1) * FRAG_SIZE) SIZE

/-- The pages that an expansion at `adr` maps. -/
def next (p : Plan) (adr : ℕ) : Span := ⟨adr / pageSize, p.amount / pageSize⟩

/-- A call on `adr`: below the head nothing happens. -/
def call (p : Plan) (adr : ℕ) : Plan :=
  if adr < p.head then p else ⟨p.head + p.amount, p.grown + 1, p.next adr :: p.spans⟩

/-- A call on `adr` is turned away, or stays clear of the heap pages mapped so far. -/
def Clear (p : Plan) (adr : ℕ) : Prop := adr < p.head ∨ ∀ s ∈ p.spans, s.Apart (p.next adr)

instance (p : Plan) (adr : ℕ) : Decidable (p.Clear adr) := inferInstanceAs (Decidable (_ ∨ _))

/-- `adr` is at or above the head, or on a page mapped so far. -/
def Reaches (p : Plan) (adr : ℕ) : Prop := p.head ≤ adr ∨ p.Covers (adr / pageSize)

instance (p : Plan) (adr : ℕ) : Decidable (p.Reaches adr) := inferInstanceAs (Decidable (_ ∨ _))

/-- Every call of the sequence finds the plan of the calls before it in order. -/
def Always (Fits : Plan → ℕ → Prop) : Plan → List ℕ → Prop
  | _, [] => True
  | p, adr :: adrs => Fits p adr ∧ Always Fits (p.call adr) adrs

instance decidableAlways (Fits : Plan → ℕ → Prop) [∀ p adr, Decidable (Fits p adr)] :
    ∀ p adrs, Decidable (Always Fits p adrs)
  | _, [] => isTrue trivial
  | p, adr :: adrs =>
    have := decidableAlways Fits (p.call adr) adrs
    inferInstanceAs (Decidable (_ ∧ _))

theorem amount_eq (p : Plan) :
    p.amount = if (p.grown + 1) * FRAG_SIZE < SIZE then (p.grown + 1) * FRAG_SIZE else SIZE := by
  rw [amount, min_def]
  split_ifs <;> omega

theorem amount_pages_pos (p : Plan) : 0 < p.amount / pageSize := by
  have : FRAG_SIZE ≤ (p.grown + 1) * FRAG_SIZE := Nat.le_mul_of_pos_left _ (Nat.succ_pos _)
  simp only [amount, pageSize, FRAG_SIZE, SIZE] at *
  omega

theorem next_covers_self (p : Plan) (adr : ℕ) : (p.next adr).Covers (adr / pageSize) :=
  ⟨le_rfl, Nat.lt_add_of_pos_right p.amount_pages_pos⟩

theorem call_covers {p : Plan} {adr n : ℕ} (h : p.head ≤ adr) :
    (p.call adr).Covers n ↔ (p.next adr).Covers n ∨ p.Covers n := by
  simp [call, Covers, Nat.not_lt.mpr h]

end Plan

/-! ## The machine follows the plan -/

theorem InHeap.not_inArea {q : Page} (h : InHeap q) : ¬ InArea q := by
  simp only [InHeap, InArea, START, SIZE, pageSize, kvmspace, p1PageCount] at h ⊢
  omega

/-- Virtual memory and the allocator are in order, and the heap pages whose numbers satisfy `C`
are the mapped ones.  Their frames are not free. -/
structure Occupies (vm : Vm) (pmm : PhysicalFrameAllocator) (C : ℕ → Prop) : Prop where
  sound : pmm.Sound
  inv : vm.Inv
  fresh : Disjoint pmm.free vm.tables
  mapped : ∀ q, InHeap q → ((vm.translate q).isSome ↔ C q.num)
  taken : ∀ q translation, InHeap q → vm.translate q = some translation →
    translation.frame ∉ pmm.free

/-- What `valloc` has done to virtual memory and to the free frames when it returns. -/
structure Grows (vm vm' : Vm) (pmm pmm' : PhysicalFrameAllocator) (page : Page) (n : ℕ) : Prop where
  sound : pmm'.Sound
  evolves : Evolves vm vm' pmm.free pmm'.free (visited page 0 n)
  backed : ∀ k < n, Backed vm' pmm.free pmm'.free page .WRITABLE k

section Growth

variable {vm vm' : Vm} {pmm pmm' : PhysicalFrameAllocator} {page : Page} {n : ℕ} {C : ℕ → Prop}

theorem Occupies.grows (hocc : Occupies vm pmm C)
    (h : (valloc vm page n .WRITABLE).run PhysicalFrameAllocator.pool pmm = .ok (vm', pmm')) :
    Grows vm vm' pmm pmm' page n := by
  obtain ⟨hret, hsound, -⟩ := run_returns PhysicalFrameAllocator.freeSet hocc.sound h
  obtain ⟨hev, hbacked⟩ := valloc_evolves hocc.inv hocc.fresh hret
  exact ⟨hsound, hev, hbacked⟩

/-- Growth adds a span to the mapped heap pages. -/
theorem Grows.occupies (h : Grows vm vm' pmm pmm' page n) (hocc : Occupies vm pmm C) :
    Occupies vm' pmm' fun k => Span.Covers ⟨page.num, n⟩ k ∨ C k := by
  have hcovers : ∀ q : Page, q ∈ visited page 0 n ↔ Span.Covers ⟨page.num, n⟩ q.num :=
    fun q => mem_visited
  refine ⟨h.sound, h.evolves.inv, h.evolves.fresh hocc.fresh, fun q hq => ?_,
    fun q translation hq htrans => ?_⟩
  · by_cases hmem : q ∈ visited page 0 n
    · obtain ⟨f, -, -, -, htrans⟩ := Backed.of_mem_visited h.backed hmem
      simp [htrans, (hcovers q).mp hmem]
    · rw [h.evolves.translate q hq.not_inArea hmem, hocc.mapped q hq]
      simp [mt (hcovers q).mpr hmem]
  · by_cases hmem : q ∈ visited page 0 n
    · obtain ⟨f, -, -, hfree, htrans'⟩ := Backed.of_mem_visited h.backed hmem
      rw [htrans, Option.some.injEq] at htrans'
      rwa [htrans']
    · rw [h.evolves.translate q hq.not_inArea hmem] at htrans
      exact fun hfree => hocc.taken q translation hq htrans (h.evolves.free hfree)

end Growth

/-- The heap of the machine is what the plan says. -/
structure Refines (s : Machine) (p : Plan) : Prop extends Occupies s.vm s.pmm p.Covers where
  head : s.heap.head = p.head
  grown : s.heap.expandCount = p.grown

section Step

variable {s s' : Machine} {p : Plan} {adr : VirtAddr}

/-- What a call of `expand` does: nothing below the head, and one `valloc` otherwise. -/
theorem Machine.expand_cases (href : Refines s p) (h : s.expand adr = .ok s') :
    (adr.val < p.head ∧ s' = s) ∨
      (p.head ≤ adr.val ∧ s'.heap = ⟨p.grown + 1, p.head + p.amount⟩ ∧
        Grows s.vm s'.vm s.pmm s'.pmm (Page.containing adr) (p.amount / pageSize)) := by
  unfold Machine.expand Heap.expand at h
  rw [href.head, href.grown] at h
  split_ifs at h with hlt
  · left
    cases h
    exact ⟨hlt, rfl⟩
  · right
    simp only [↓run_lift_bind_eq_ok, run_bind_eq_ok, run_pure, except_bind_eq_ok, checkedAdd_eq_ok,
      checkedMul_eq_ok, Except.ok.injEq, Prod.exists, Prod.mk.injEq] at h
    obtain ⟨heap, vm, pmm, ⟨_, ⟨-, rfl⟩, _, ⟨-, rfl⟩, vm₁, pmm₁, hvalloc, _, ⟨-, rfl⟩, ⟨rfl, rfl⟩,
      rfl⟩, rfl⟩ := h
    rw [← Plan.amount_eq] at hvalloc
    exact ⟨Nat.not_lt.mp hlt, by rw [Plan.amount_eq], href.grows hvalloc⟩

/-- A call on the machine is a call on the plan, which knows the addresses of the calls but neither
page tables nor frames. -/
theorem Machine.expand_refines (href : Refines s p) (h : s.expand adr = .ok s') :
    Refines s' (p.call adr.val) := by
  rcases Machine.expand_cases href h with ⟨hlt, rfl⟩ | ⟨hle, hheap, hgrows⟩
  · rwa [Plan.call, if_pos hlt]
  have hcall : p.call adr.val = ⟨p.head + p.amount, p.grown + 1, p.next adr.val :: p.spans⟩ :=
    if_neg (Nat.not_lt.mpr hle)
  have hocc := hgrows.occupies href.toOccupies
  refine ⟨⟨hocc.sound, hocc.inv, hocc.fresh, fun q hq => ?_, hocc.taken⟩, ?_, ?_⟩
  · rw [Plan.call_covers hle]
    exact hocc.mapped q hq
  · rw [hheap, hcall]
  · rw [hheap, hcall]

/-- A call remaps a page exactly when the plan runs into a span mapped before: the new frame is
free, and the old one is not. -/
theorem Machine.remaps_iff (href : Refines s p) (h : s.expand adr = .ok s') :
    ¬ Call.Remaps ⟨adr, s.vm, s'.vm⟩ ↔ p.Clear adr.val := by
  rcases Machine.expand_cases href h with ⟨hlt, rfl⟩ | ⟨hle, -, hgrows⟩
  · refine ⟨fun _ => .inl hlt, fun _ => ?_⟩
    rintro ⟨q, translation, -, hbefore, hafter⟩
    exact hafter hbefore
  constructor
  · intro hkeep
    refine .inr fun t ht => Span.apart_iff.mpr fun n hlo hhi hcovers hnext => hkeep ?_
    have hcanonical : 2 ^ 52 - 2 ^ 35 ≤ n ∧ n < 2 ^ 52 := by
      simp only [START, SIZE, pageSize] at hlo hhi
      omega
    -- a page that both spans cover is mapped twice, with two different frames
    let q : Page := ⟨n, .inr hcanonical⟩
    have hheap : InHeap q := ⟨hlo, hhi⟩
    obtain ⟨translation, htrans⟩ :=
      Option.isSome_iff_exists.mp ((href.mapped _ hheap).mpr ⟨t, ht, hcovers⟩)
    obtain ⟨f, -, hfree, -, htrans'⟩ :=
      Backed.of_mem_visited hgrows.backed (mem_visited (q := q).mpr hnext)
    refine ⟨_, translation, hheap, htrans, fun hsame => ?_⟩
    rw [htrans', Option.some.injEq] at hsame
    exact href.taken _ _ hheap htrans (hsame ▸ hfree)
  · rintro (hlt | hclear) ⟨q, translation, hq, hbefore, hafter⟩
    · omega
    · obtain ⟨t, ht, hcovers⟩ := (href.mapped q hq).mp (by simp [hbefore])
      -- a page that was mapped is in an old span, so that the new one misses it
      have hnext : ¬ (p.next adr.val).Covers q.num :=
        Span.apart_iff.mp (hclear t ht) q.num hq.1 hq.2 hcovers
      refine hafter ?_
      rw [← hbefore]
      exact hgrows.evolves.translate q hq.not_inArea fun hmem => hnext (mem_visited.mp hmem)

theorem IsHeap.inHeap (h : IsHeap adr) : InHeap (Page.containing adr) := by
  simp only [IsHeap, InHeap, Page.startAddress, Page.containing, START, SIZE, pageSize] at h ⊢
  omega

/-- A call leaves its page mapped exactly when the plan reaches it. -/
theorem Machine.mapsAddress_iff (href : Refines s p) (hheap : IsHeap adr)
    (h : s.expand adr = .ok s') : Call.MapsAddress ⟨adr, s.vm, s'.vm⟩ ↔ p.Reaches adr.val := by
  have hmapped := (Machine.expand_refines href h).mapped _ hheap.inHeap
  refine hmapped.trans ?_
  by_cases hle : p.head ≤ adr.val
  · rw [Plan.call_covers hle]
    exact ⟨fun _ => .inl hle, fun _ => .inl (p.next_covers_self adr.val)⟩
  · rw [Plan.call, if_pos (Nat.not_le.mp hle)]
    exact ⟨.inr, fun hreach => hreach.resolve_left hle⟩

end Step

/-- From single calls to sequences: what a call does is read off the plan of the calls before. -/
theorem Calls.forall_iff {Good : Call → Prop} {Fits : Plan → ℕ → Prop} {s s' : Machine} {p : Plan}
    {calls : List Call} (href : Refines s p) (hcalls : Calls s calls s')
    (hstep : ∀ c ∈ calls, ∀ s s' p, Refines s p → s.expand c.adr = .ok s' →
      c = ⟨c.adr, s.vm, s'.vm⟩ → (Good c ↔ Fits p c.adr.val)) :
    (∀ c ∈ calls, Good c) ↔ p.Always Fits (calls.map fun c => c.adr.val) := by
  induction hcalls generalizing p with
  | nil => simp [Plan.Always]
  | cons hexp _ ih =>
    have hhead := hstep _ List.mem_cons_self _ _ _ href hexp rfl
    have htail := ih (Machine.expand_refines href hexp) fun c hc =>
      hstep c (List.mem_cons_of_mem _ hc)
    rw [List.forall_mem_cons, List.map_cons, Plan.Always, hhead, htail]

theorem Calls.never_remaps_iff {s s' : Machine} {p : Plan} {calls : List Call} (href : Refines s p)
    (hcalls : Calls s calls s') :
    (∀ c ∈ calls, ¬ c.Remaps) ↔ p.Always Plan.Clear (calls.map fun c => c.adr.val) := by
  refine Calls.forall_iff href hcalls ?_
  intro c _ s s' p href hexp hc
  rw [hc]
  exact Machine.remaps_iff href hexp

theorem Calls.maps_address_iff {s s' : Machine} {p : Plan} {calls : List Call} (href : Refines s p)
    (hcalls : Calls s calls s') (hheap : ∀ c ∈ calls, IsHeap c.adr) :
    (∀ c ∈ calls, c.MapsAddress) ↔ p.Always Plan.Reaches (calls.map fun c => c.adr.val) := by
  refine Calls.forall_iff href hcalls ?_
  intro c hmem s s' p href hexp hc
  rw [hc]
  exact Machine.mapsAddress_iff href (hheap c hmem) hexp

/-! ## Boot -/

/-- Virtual memory before `heap::init`: nothing is mapped in the heap. -/
structure BeforeInit (vm : Vm) (pmm : PhysicalFrameAllocator) : Prop where
  sound : pmm.Sound
  inv : vm.Inv
  fresh : Disjoint pmm.free vm.tables
  unmapped : ∀ q, InHeap q → vm.translate q = none

/-- Before `heap::init` no heap page is mapped. -/
theorem BeforeInit.occupies {vm : Vm} {pmm : PhysicalFrameAllocator} (h : BeforeInit vm pmm) :
    Occupies vm pmm fun _ => False :=
  ⟨h.sound, h.inv, h.fresh, fun q hq => by simp [h.unmapped q hq],
    fun q translation hq htrans => by simp [h.unmapped q hq] at htrans⟩

/-- What `heap::init` does: one `valloc` at the start of the heap. -/
theorem boot_grows {vm : Vm} {pmm : PhysicalFrameAllocator} {s : Machine}
    (hbefore : BeforeInit vm pmm) (h : boot vm pmm = .ok s) :
    ∃ vm' pmm', Grows vm vm' pmm pmm' START (FRAG_SIZE / pageSize) ∧ s = ⟨.new, vm', pmm'⟩ := by
  unfold boot Heap.init at h
  simp only [except_bind_eq_ok, Prod.exists, Except.ok.injEq] at h
  obtain ⟨vm', pmm', hvalloc, rfl⟩ := h
  exact ⟨vm', pmm', hbefore.occupies.grows hvalloc, rfl⟩

/-- `heap::init` leaves the machine at the start of the plan. -/
theorem boot_refines {vm : Vm} {pmm : PhysicalFrameAllocator} {s : Machine}
    (hbefore : BeforeInit vm pmm) (h : boot vm pmm = .ok s) : Refines s .start := by
  obtain ⟨vm', pmm', hgrows, rfl⟩ := boot_grows hbefore h
  have hocc := hgrows.occupies hbefore.occupies
  refine ⟨⟨hocc.sound, hocc.inv, hocc.fresh, fun q hq => ?_, hocc.taken⟩, rfl, rfl⟩
  rw [hocc.mapped q hq]
  simp [Plan.Covers, Plan.start]

/-! ## Progress -/

section Progress

variable {s : Machine} {p : Plan} {adr : VirtAddr} {m : ℕ}

/-- The pages of an expansion exist. -/
theorem pagesExist_of_isHeap (hheap : IsHeap adr) (p : Plan) :
    PagesExist (Page.containing adr) 0 (p.amount / pageSize) := by
  have hin := hheap.inHeap
  have hamount : p.amount / pageSize ≤ SIZE / pageSize := Nat.div_le_div_right (min_le_right _ _)
  simp only [InHeap, START, SIZE, pageSize] at hin hamount ⊢
  intro k _ hk
  refine ⟨⟨(Page.containing adr).num + k, by omega⟩, Page.add_eq_ok.mpr rfl, ?_⟩
  simp only [InArea, kvmspace, p1PageCount]
  omega

private theorem writable_not_huge :
    PageTableFlags.WRITABLE.contains .HUGE_PAGE = false := by decide

/-- A call returns when there are free frames and the counters are far from overflow. -/
theorem Machine.expand_returns (href : Refines s p) (hheap : IsHeap adr)
    (hable : Able s.vm s.pmm (m + 4 * (p.amount / pageSize)))
    (hcount : (p.grown + 1) * FRAG_SIZE < 2 ^ 64) (hhead : p.head + p.amount < 2 ^ 64) :
    ∃ s', s.expand adr = .ok s' ∧ Able s'.vm s'.pmm m := by
  unfold Machine.expand Heap.expand
  rw [href.head, href.grown]
  split_ifs with hlt
  · exact ⟨_, rfl, { hable with free := hable.free.mono (Nat.le_add_right _ _) }⟩
  · obtain ⟨vm', pmm', hvalloc, hable'⟩ :=
      hable.valloc (pagesExist_of_isHeap hheap p) writable_not_huge
    refine ⟨⟨⟨p.grown + 1, p.head + p.amount⟩, vm', pmm'⟩, ?_, hable'⟩
    simp only [↓run_lift_bind_eq_ok, run_bind_eq_ok, run_pure, except_bind_eq_ok, checkedAdd_eq_ok,
      checkedMul_eq_ok, Except.ok.injEq, Prod.exists, Prod.mk.injEq]
    rw [Plan.amount_eq] at hvalloc hhead ⊢
    have hsucc : p.grown + 1 < 2 ^ 64 := by
      simp only [FRAG_SIZE] at hcount
      omega
    exact ⟨_, vm', pmm', ⟨_, ⟨hsucc, rfl⟩, _, ⟨hcount, rfl⟩, vm', pmm', hvalloc, _, ⟨hhead, rfl⟩,
      ⟨rfl, rfl⟩, rfl⟩, rfl⟩

/-- A sequence of calls that `n` free frames are enough for. -/
def Plan.Affords : Plan → ℕ → List ℕ → Prop
  | _, _, [] => True
  | p, n, adr :: adrs =>
    4 * (p.amount / pageSize) ≤ n ∧ (p.grown + 1) * FRAG_SIZE < 2 ^ 64 ∧
      p.head + p.amount < 2 ^ 64 ∧
      Affords (p.call adr) (n - 4 * (p.amount / pageSize)) adrs

instance decidableAffords : ∀ p n adrs, Decidable (Plan.Affords p n adrs)
  | _, _, [] => isTrue trivial
  | p, n, adr :: adrs =>
    have := decidableAffords (p.call adr) (n - 4 * (p.amount / pageSize)) adrs
    inferInstanceAs (Decidable (_ ∧ _ ∧ _ ∧ _))

/-- A sequence of calls on heap addresses runs to its end when there is memory for it. -/
theorem exists_calls {n : ℕ} {adrs : List VirtAddr} (href : Refines s p)
    (hable : Able s.vm s.pmm n) (hheap : ∀ adr ∈ adrs, IsHeap adr)
    (hafford : p.Affords n (adrs.map VirtAddr.val)) :
    ∃ calls s', Calls s calls s' ∧ calls.map Call.adr = adrs := by
  induction adrs generalizing s p n with
  | nil => exact ⟨[], s, .nil s, rfl⟩
  | cons adr adrs ih =>
    obtain ⟨hframes, hcount, hhead, hrest⟩ := hafford
    rw [← Nat.sub_add_cancel hframes] at hable
    obtain ⟨s₁, hexp, hable₁⟩ :=
      Machine.expand_returns href (hheap adr List.mem_cons_self) hable hcount hhead
    obtain ⟨calls, s', hcalls, hadrs⟩ := ih (Machine.expand_refines href hexp) hable₁
      (fun a ha => hheap a (List.mem_cons_of_mem _ ha)) hrest
    exact ⟨_, s', .cons hexp hcalls, by rw [List.map_cons, hadrs]⟩

/-- A core faults on the heap pages outside the plan. -/
theorem Refines.translate_eq_none (href : Refines s p) (hheap : IsHeap adr)
    (h : ¬ p.Covers (adr.val / pageSize)) : s.vm.translate (Page.containing adr) = none :=
  Option.not_isSome_iff_eq_none.mp fun hsome => h ((href.mapped _ hheap.inHeap).mp hsome)

theorem Machine.pageFault_of_isHeap (s : Machine) (hheap : IsHeap adr) :
    s.pageFault adr false = s.expand adr := by
  unfold Machine.pageFault Heap.pageFault
  rw [if_pos ⟨rfl, hheap⟩]
  rfl

/-- One core that faults, runs the handler and goes on. -/
theorem Calls.faults {s' : Machine} {calls : List Call} (href : Refines s p)
    (hcalls : Calls s calls s') (hheap : ∀ c ∈ calls, IsHeap c.adr)
    (hunmapped : p.Always (fun p adr => ¬ p.Covers (adr / pageSize))
      (calls.map fun c => c.adr.val)) : Faults s (fun _ => none) calls s' := by
  induction hcalls generalizing p with
  | nil s => exact .nil s _
  | @cons s _ _ adr _ hexp _ ih =>
    obtain ⟨hnone, hrest⟩ := hunmapped
    have hadr : IsHeap adr := hheap _ List.mem_cons_self
    refine .fault 0 adr rfl hadr (href.translate_eq_none hadr hnone) ?_
    refine .handle 0 (Function.update_self ..) ((s.pageFault_of_isHeap hadr).trans hexp) ?_
    rw [Function.update_idem, Function.update_eq_self_iff.mpr rfl]
    exact ih (Machine.expand_refines href hexp) (fun c hc => hheap c (List.mem_cons_of_mem _ hc))
      hrest

end Progress

theorem beforeInit_fresh : BeforeInit freshVm freshPmm where
  sound := able_fresh.sound
  inv := able_fresh.ready.inv
  fresh := able_fresh.fresh
  unmapped _ hq := freshVm_translate hq.not_inArea

/-- `heap::init` in a fresh address space. -/
theorem exists_boot_fresh : ∃ s, boot freshVm freshPmm = .ok s ∧ Able s.vm s.pmm 4063 := by
  have hpages : PagesExist START 0 (FRAG_SIZE / pageSize) := by
    intro k _ hk
    simp only [FRAG_SIZE, pageSize] at hk
    refine ⟨⟨START.num + k, ?_⟩, Page.add_eq_ok.mpr rfl, ?_⟩
    · simp only [START]
      omega
    · simp only [InArea, START, kvmspace, p1PageCount]
      omega
  obtain ⟨vm, pmm, hrun, hable⟩ := able_fresh.valloc (m := 4063) hpages writable_not_huge
  refine ⟨⟨.new, vm, pmm⟩, ?_, hable⟩
  unfold boot Heap.init
  rw [hrun]
  rfl

/-- The address `off` bytes into the heap. -/
def heapAddress (off : ℕ) (h : off < SIZE) : VirtAddr :=
  ⟨START.startAddress + off, by simp only [START, SIZE, Page.startAddress, pageSize] at *; omega⟩

theorem isHeap_heapAddress {off : ℕ} (h : off < SIZE) : IsHeap (heapAddress off h) :=
  ⟨Nat.le_add_right _ _, Nat.add_lt_add_left h _⟩

/-- Calls in a fresh address space, when there is memory for them. -/
theorem exists_calls_fresh (adrs : List VirtAddr) (hheap : ∀ adr ∈ adrs, IsHeap adr)
    (hafford : Plan.start.Affords 4063 (adrs.map VirtAddr.val)) :
    ∃ s s' calls, boot freshVm freshPmm = .ok s ∧ Refines s .start ∧ Calls s calls s' ∧
      calls.map Call.adr = adrs := by
  obtain ⟨s, hboot, hable⟩ := exists_boot_fresh
  have href := boot_refines beforeInit_fresh hboot
  obtain ⟨calls, s', hcalls, hadrs⟩ := exists_calls href hable hheap hafford
  exact ⟨s, s', calls, hboot, href, hcalls, hadrs⟩

theorem map_adr_val {calls : List Call} {adrs : List VirtAddr} (h : calls.map Call.adr = adrs) :
    (calls.map fun c => c.adr.val) = adrs.map VirtAddr.val := by
  rw [← h, List.map_map]
  rfl

theorem isHeap_of_map_adr {calls : List Call} {adrs : List VirtAddr}
    (h : calls.map Call.adr = adrs) (hheap : ∀ adr ∈ adrs, IsHeap adr) :
    ∀ c ∈ calls, IsHeap c.adr :=
  fun c hc => hheap c.adr (h ▸ List.mem_map_of_mem hc)

/-! ## Live heap pages -/

/-- **No call remaps a mapped heap page exactly when the expansions stay apart.** From the state
that `heap::init` leaves, over every sequence of faults and handlers. The condition is on the
addresses of the calls alone: each of them is below the head, so that the call returns at once, or
the pages of its expansion are apart from all pages mapped so far. -/
theorem expand_never_remaps_iff {vm : Vm} {pmm : PhysicalFrameAllocator} {s s' : Machine}
    {calls : List Call} (hbefore : BeforeInit vm pmm) (hboot : boot vm pmm = .ok s)
    (hfaults : Faults s (fun _ => none) calls s') :
    (∀ c ∈ calls, ¬ c.Remaps) ↔ Plan.start.Always Plan.Clear (calls.map fun c => c.adr.val) :=
  hfaults.calls.never_remaps_iff (boot_refines hbefore hboot)

/-- One core faults right behind the pages of `heap::init`, and again behind the expansion that
this causes. -/
theorem expand_never_remaps_ascending :
    ∃ s s' calls, BeforeInit freshVm freshPmm ∧ boot freshVm freshPmm = .ok s ∧
      Faults s (fun _ => none) calls s' ∧
      calls.map Call.adr =
        [heapAddress 0x8000 (by decide), heapAddress 0x10000 (by decide)] ∧
      ∀ c ∈ calls, ¬ c.Remaps := by
  obtain ⟨s, s', calls, hboot, href, hcalls, hadrs⟩ := exists_calls_fresh
    [heapAddress 0x8000 (by decide), heapAddress 0x10000 (by decide)]
    (by decide) (by decide)
  have hfaults : Faults s (fun _ => none) calls s' := by
    refine hcalls.faults href (isHeap_of_map_adr hadrs (by decide)) ?_
    rw [map_adr_val hadrs]
    decide
  refine ⟨s, s', calls, beforeInit_fresh, hboot, hfaults, hadrs, ?_⟩
  refine (expand_never_remaps_iff beforeInit_fresh hboot hfaults).mpr ?_
  rw [map_adr_val hadrs]
  decide

/-- Two cores fault on the first page behind those of `heap::init`.  The second handler runs with
the head at the faulting address, so that it is not turned away and maps the page again. -/
theorem expand_remaps_race :
    ∃ s s' calls, BeforeInit freshVm freshPmm ∧ boot freshVm freshPmm = .ok s ∧
      Faults s (fun _ => none) calls s' ∧
      calls.map Call.adr =
        [heapAddress 0x8000 (by decide), heapAddress 0x8000 (by decide)] ∧
      ¬ ∀ c ∈ calls, ¬ c.Remaps := by
  obtain ⟨s, s', calls, hboot, href, hcalls, hadrs⟩ := exists_calls_fresh
    [heapAddress 0x8000 (by decide), heapAddress 0x8000 (by decide)]
    (by decide) (by decide)
  have hheap : IsHeap (heapAddress 0x8000 (by decide)) := isHeap_heapAddress (by decide)
  -- the second call finds the head exactly at its address, which is not below it
  refine ⟨s, s', calls, beforeInit_fresh, hboot, ?_, hadrs, ?_⟩
  · -- both faults come before the first handler
    have hnone := href.translate_eq_none hheap (by decide)
    refine .fault 0 _ rfl hheap hnone (.fault 1 _ (by simp) hheap hnone ?_)
    obtain ⟨s₁, calls₁, rfl, hexp₁, hcalls₁, hadrs₁⟩ := hcalls.cons_inv hadrs
    obtain ⟨s₂, calls₂, rfl, hexp₂, hcalls₂, hadrs₂⟩ := hcalls₁.cons_inv hadrs₁
    obtain ⟨rfl, rfl⟩ := hcalls₂.nil_inv hadrs₂
    refine .handle 0 (by simp) ((s.pageFault_of_isHeap hheap).trans hexp₁) ?_
    refine .handle 1 (by simp) ((s₁.pageFault_of_isHeap hheap).trans hexp₂) ?_
    exact .nil _ _
  · rw [hcalls.never_remaps_iff href, map_adr_val hadrs]
    decide

/-! ## Progress of faulting cores -/

/-- **Every call leaves its page mapped exactly when the plan reaches it.** From the state that
`heap::init` leaves, over every sequence of calls on heap addresses. An address below the head whose
page no earlier expansion has covered is turned away and stays unmapped. -/
theorem expand_maps_address_iff {vm : Vm} {pmm : PhysicalFrameAllocator} {s s' : Machine}
    {calls : List Call} (hbefore : BeforeInit vm pmm) (hboot : boot vm pmm = .ok s)
    (hcalls : Calls s calls s') (hheap : ∀ c ∈ calls, IsHeap c.adr) :
    (∀ c ∈ calls, c.MapsAddress) ↔
      Plan.start.Always Plan.Reaches (calls.map fun c => c.adr.val) :=
  hcalls.maps_address_iff (boot_refines hbefore hboot) hheap

/-- Faults in address order. -/
theorem expand_maps_address_ascending :
    ∃ s s' calls, BeforeInit freshVm freshPmm ∧ boot freshVm freshPmm = .ok s ∧
      Calls s calls s' ∧ (∀ c ∈ calls, IsHeap c.adr) ∧
      calls.map Call.adr =
        [heapAddress 0x8000 (by decide), heapAddress 0x10000 (by decide)] ∧
      ∀ c ∈ calls, c.MapsAddress := by
  obtain ⟨s, s', calls, hboot, -, hcalls, hadrs⟩ := exists_calls_fresh
    [heapAddress 0x8000 (by decide), heapAddress 0x10000 (by decide)]
    (by decide) (by decide)
  have hheap := isHeap_of_map_adr hadrs (by decide)
  refine ⟨s, s', calls, beforeInit_fresh, hboot, hcalls, hheap, hadrs, ?_⟩
  refine (expand_maps_address_iff beforeInit_fresh hboot hcalls hheap).mpr ?_
  rw [map_adr_val hadrs]
  decide

/-- Two expansions far above the head move it past pages that nothing has mapped; a call on one
of these is turned away. -/
theorem expand_leaves_hole :
    ∃ s s' calls, BeforeInit freshVm freshPmm ∧ boot freshVm freshPmm = .ok s ∧
      Calls s calls s' ∧ (∀ c ∈ calls, IsHeap c.adr) ∧
      calls.map Call.adr =
        [heapAddress 0x100000 (by decide), heapAddress 0x200000 (by decide),
          heapAddress 0x8000 (by decide)] ∧
      ¬ ∀ c ∈ calls, c.MapsAddress := by
  obtain ⟨s, s', calls, hboot, href, hcalls, hadrs⟩ := exists_calls_fresh
    [heapAddress 0x100000 (by decide), heapAddress 0x200000 (by decide),
      heapAddress 0x8000 (by decide)] (by decide) (by decide)
  have hheap := isHeap_of_map_adr hadrs (by decide)
  refine ⟨s, s', calls, beforeInit_fresh, hboot, hcalls, hheap, hadrs, ?_⟩
  rw [hcalls.maps_address_iff href hheap, map_adr_val hadrs]
  decide

end HeliumOS.Mem.Heap
