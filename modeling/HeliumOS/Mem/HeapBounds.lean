import HeliumOS.Mem.Heap

/-!
# The Bounds of the Kernel Heap

`expand` clips an expansion to `SIZE`, whatever the address it starts at: `left` is
`heap_end - START`.  An expansion that starts near the end of the heap runs past it.

- `Plan.Inside` says when one does not, from the addresses of the calls alone.
- `expand_stays_inside_iff` connects it to the pages that a sequence of calls maps.
-/

namespace HeliumOS.Mem.Heap

open HeliumOS.Mem.Virt

/-- The call gives the page a translation that it did not have.  The windows of the mapper are
left aside: they change on the way. -/
def Call.Maps (c : Call) (q : Page) : Prop :=
  ¬ InArea q ∧ ∃ translation, c.after.translate q = some translation ∧
    c.before.translate q ≠ some translation

/-- Every page that the call maps is a page of the heap. -/
def Call.StaysInside (c : Call) : Prop := ∀ q, c.Maps q → InHeap q

/-- A call on `adr` is turned away, or its expansion ends inside the heap. -/
def Plan.Inside (p : Plan) (adr : ℕ) : Prop :=
  adr < p.head ∨ (p.next adr).start + (p.next adr).pages ≤ START.num + SIZE / pageSize

instance (p : Plan) (adr : ℕ) : Decidable (p.Inside adr) := inferInstanceAs (Decidable (_ ∨ _))

/-- The pages right behind the heap, as many as the heap has. -/
def Behind (q : Page) : Prop :=
  START.num + SIZE / pageSize ≤ q.num ∧ q.num < START.num + 2 * (SIZE / pageSize)

/-- No page behind the heap shows a free frame.  At boot nothing is mapped there at all. -/
def NoStale (vm : Vm) (pmm : PhysicalFrameAllocator) : Prop :=
  ∀ q translation, Behind q → vm.translate q = some translation → translation.frame ∉ pmm.free

theorem Behind.not_inArea {q : Page} (h : Behind q) : ¬ InArea q := by
  simp only [Behind, InArea, START, SIZE, pageSize, kvmspace, p1PageCount] at h ⊢
  omega

theorem Behind.not_inHeap {q : Page} (h : Behind q) : ¬ InHeap q :=
  fun hin => Nat.not_lt.mpr h.1 hin.2

/-- The frames of new pages are taken, and the old pages keep theirs. -/
theorem Grows.noStale {vm vm' : Vm} {pmm pmm' : PhysicalFrameAllocator} {page : Page} {n : ℕ}
    (h : Grows vm vm' pmm pmm' page n) (hstale : NoStale vm pmm) : NoStale vm' pmm' := by
  intro q translation hq htrans
  by_cases hmem : q ∈ visited page 0 n
  · obtain ⟨f, -, -, hfree, htrans'⟩ := Backed.of_mem_visited h.backed hmem
    rw [htrans, Option.some.injEq] at htrans'
    rwa [htrans']
  · rw [h.evolves.translate q hq.not_inArea hmem] at htrans
    exact fun hfree => hstale q translation hq htrans (h.evolves.free hfree)

section Step

variable {s s' : Machine} {p : Plan} {adr : VirtAddr}

theorem Machine.expand_noStale (href : Refines s p) (hstale : NoStale s.vm s.pmm)
    (h : s.expand adr = .ok s') : NoStale s'.vm s'.pmm := by
  rcases Machine.expand_cases href h with ⟨-, rfl⟩ | ⟨-, -, hgrows⟩
  · exact hstale
  · exact hgrows.noStale hstale

/-- An expansion that ends inside the heap maps heap pages only. -/
theorem Machine.staysInside_of_inside (href : Refines s p) (hheap : IsHeap adr)
    (h : s.expand adr = .ok s') (hinside : p.Inside adr.val) :
    Call.StaysInside ⟨adr, s.vm, s'.vm⟩ := by
  rintro q ⟨harea, translation, hafter, hbefore⟩
  rcases Machine.expand_cases href h with ⟨-, rfl⟩ | ⟨hle, -, hgrows⟩
  · exact absurd hafter hbefore
  · -- a page whose translation changed is one of the expansion
    have hmem : q ∈ visited (Page.containing adr) 0 (p.amount / pageSize) := by
      by_contra hmem
      rw [hgrows.evolves.translate q harea hmem] at hafter
      exact hbefore hafter
    obtain ⟨hlo, hhi⟩ : (p.next adr.val).Covers q.num := mem_visited.mp hmem
    refine ⟨hheap.inHeap.1.trans hlo, hhi.trans_le ?_⟩
    exact hinside.resolve_left (Nat.not_lt.mpr hle)

/-- An expansion that ends past the heap maps its last page there. -/
theorem Machine.inside_of_staysInside (href : Refines s p) (hstale : NoStale s.vm s.pmm)
    (hheap : IsHeap adr) (h : s.expand adr = .ok s')
    (hstays : Call.StaysInside ⟨adr, s.vm, s'.vm⟩) : p.Inside adr.val := by
  rcases Machine.expand_cases href h with ⟨hlt, -⟩ | ⟨hle, -, hgrows⟩
  · exact .inl hlt
  by_contra hinside
  have hpast : START.num + SIZE / pageSize <
      (Page.containing adr).num + p.amount / pageSize :=
    Nat.not_le.mp fun hend => hinside (.inr hend)
  have hin := hheap.inHeap
  have hamount : p.amount / pageSize ≤ SIZE / pageSize := Nat.div_le_div_right (min_le_right _ _)
  have hpos := p.amount_pages_pos
  -- the last page of the growth lies behind the heap, and it is translated now
  obtain ⟨q, hq, -⟩ := pagesExist_of_isHeap hheap p (p.amount / pageSize - 1) (Nat.zero_le _)
    (by omega)
  have hnum := Page.add_eq_ok.mp hq
  have hbehind : Behind q := by
    simp only [InHeap] at hin
    simp only [Behind]
    omega
  have hmem : q ∈ visited (Page.containing adr) 0 (p.amount / pageSize) := by
    rw [mem_visited]
    omega
  obtain ⟨f, -, hfree, -, htrans⟩ := Backed.of_mem_visited hgrows.backed hmem
  refine hbehind.not_inHeap (hstays q ⟨hbehind.not_inArea, _, htrans, fun hbefore => ?_⟩)
  exact hstale q _ hbehind hbefore hfree

end Step

section Sequences

variable {s s' : Machine} {p : Plan} {calls : List Call}

theorem Calls.staysInside_of_always (href : Refines s p) (hcalls : Calls s calls s')
    (hheap : ∀ c ∈ calls, IsHeap c.adr)
    (h : p.Always Plan.Inside (calls.map fun c => c.adr.val)) : ∀ c ∈ calls, c.StaysInside := by
  induction hcalls generalizing p with
  | nil => simp
  | cons hexp _ ih =>
    obtain ⟨hfirst, hrest⟩ := h
    rw [List.forall_mem_cons] at hheap ⊢
    exact ⟨Machine.staysInside_of_inside href hheap.1 hexp hfirst,
      ih (Machine.expand_refines href hexp) hheap.2 hrest⟩

theorem Calls.always_of_staysInside (href : Refines s p) (hstale : NoStale s.vm s.pmm)
    (hcalls : Calls s calls s') (hheap : ∀ c ∈ calls, IsHeap c.adr)
    (h : ∀ c ∈ calls, c.StaysInside) : p.Always Plan.Inside (calls.map fun c => c.adr.val) := by
  induction hcalls generalizing p with
  | nil => exact trivial
  | cons hexp _ ih =>
    rw [List.forall_mem_cons] at hheap h
    exact ⟨Machine.inside_of_staysInside href hstale hheap.1 hexp h.1,
      ih (Machine.expand_refines href hexp) (Machine.expand_noStale href hstale hexp) hheap.2 h.2⟩

end Sequences

theorem boot_noStale {vm : Vm} {pmm : PhysicalFrameAllocator} {s : Machine}
    (hbefore : BeforeInit vm pmm) (hstale : NoStale vm pmm) (h : boot vm pmm = .ok s) :
    NoStale s.vm s.pmm := by
  obtain ⟨vm', pmm', hgrows, rfl⟩ := boot_grows hbefore h
  exact hgrows.noStale hstale

/-- **The calls map heap pages only when their expansions end inside the heap**, and when nothing
stale is mapped behind the heap, only then.  From the state that `heap::init` leaves, over every
sequence of calls on heap addresses. -/
theorem expand_stays_inside_iff {vm : Vm} {pmm : PhysicalFrameAllocator} {s s' : Machine}
    {calls : List Call} (hbefore : BeforeInit vm pmm) (hboot : boot vm pmm = .ok s)
    (hcalls : Calls s calls s') (hheap : ∀ c ∈ calls, IsHeap c.adr) :
    (Plan.start.Always Plan.Inside (calls.map fun c => c.adr.val) →
        ∀ c ∈ calls, ∀ q, c.Maps q → InHeap q) ∧
      (NoStale vm pmm → (∀ c ∈ calls, ∀ q, c.Maps q → InHeap q) →
        Plan.start.Always Plan.Inside (calls.map fun c => c.adr.val)) := by
  have href := boot_refines hbefore hboot
  constructor
  · exact hcalls.staysInside_of_always href hheap
  · intro hstale
    exact hcalls.always_of_staysInside href (boot_noStale hbefore hstale hboot) hheap

theorem noStale_fresh : NoStale freshVm freshPmm := by
  intro q translation hq htrans
  rw [freshVm_translate hq.not_inArea] at htrans
  cases htrans

/-- Faults in address order at the start of the heap. -/
theorem expand_stays_inside_ascending :
    ∃ s s' calls, BeforeInit freshVm freshPmm ∧ NoStale freshVm freshPmm ∧
      boot freshVm freshPmm = .ok s ∧ Calls s calls s' ∧ (∀ c ∈ calls, IsHeap c.adr) ∧
      calls.map Call.adr =
        [heapAddress 0x8000 (by decide), heapAddress 0x10000 (by decide)] ∧
      ∀ c ∈ calls, ∀ q, c.Maps q → InHeap q := by
  obtain ⟨s, s', calls, hboot, -, hcalls, hadrs⟩ := exists_calls_fresh
    [heapAddress 0x8000 (by decide), heapAddress 0x10000 (by decide)]
    (by decide) (by decide)
  have hheap := isHeap_of_map_adr hadrs (by decide)
  refine ⟨s, s', calls, beforeInit_fresh, noStale_fresh, hboot, hcalls, hheap, hadrs, ?_⟩
  refine (expand_stays_inside_iff beforeInit_fresh hboot hcalls hheap).1 ?_
  rw [map_adr_val hadrs]
  decide

/-- A first expansion at the last byte of the heap: seven of its eight pages are behind it. -/
theorem expand_past_end :
    ∃ s s' calls, BeforeInit freshVm freshPmm ∧ boot freshVm freshPmm = .ok s ∧
      Calls s calls s' ∧ (∀ c ∈ calls, IsHeap c.adr) ∧
      calls.map Call.adr = [heapAddress (SIZE - 1) (by decide)] ∧
      ¬ ∀ c ∈ calls, ∀ q, c.Maps q → InHeap q := by
  obtain ⟨s, s', calls, hboot, href, hcalls, hadrs⟩ :=
    exists_calls_fresh [heapAddress (SIZE - 1) (by decide)] (by decide) (by decide)
  have hheap := isHeap_of_map_adr hadrs (by decide)
  refine ⟨s, s', calls, beforeInit_fresh, hboot, hcalls, hheap, hadrs, fun hinside => ?_⟩
  have halways := hcalls.always_of_staysInside href
    (boot_noStale beforeInit_fresh noStale_fresh hboot) hheap hinside
  rw [map_adr_val hadrs] at halways
  exact absurd halways (by decide)

end HeliumOS.Mem.Heap
