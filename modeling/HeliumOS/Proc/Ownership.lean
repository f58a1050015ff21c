import HeliumOS.Proc.Scheduler

/-!
# Ownership of Frames while a Program is Loaded

One core runs `Task::exec` while other cores call `palloc` and `pfree`, one call at a time.

- `exec_disciplined`: what `exec` gives back it holds, or has given back since its last `palloc`.
  The second case is real: a failed `MemoryMap::allocate` frees its frames, and the drop of the map
  frees them again.
- `exec_frames_owned`: as long as no other core allocates between the two, every frame stays
  allocated until its owner frees it.
- `exec_frees_foreign_frame`: an allocation in between loses its frame.
-/

namespace HeliumOS.Proc

open HeliumOS.Lib HeliumOS.Lib.AllocProg HeliumOS.Mem HeliumOS.Mem.Virt HeliumOS.Elf

/-! ## Discipline of the loader -/

section Discipline

variable {mine gone : Set PhysFrame} {core : ℕ} {map : MemoryMap} {vm : Vm}

/-- The frames of a map are held, or have been given back since the last `palloc`; as long as the
loader goes on, they are held. -/
def Holds (res : Loaded) (mine gone : Set PhysFrame) : Prop :=
  (∀ f ∈ res.2.1.frames, f ∈ mine ∪ gone) ∧ (res.1 = .ok () → gone = ∅)

theorem pfreeAll_disciplined {frames : List PhysFrame} (h : ∀ f ∈ frames, f ∈ mine ∪ gone) :
    Disciplined (fun _ mine' gone' => mine' ∪ gone' = mine ∪ gone) (pfreeAll frames) mine gone := by
  induction frames generalizing mine gone with
  | nil => exact disciplined_pure rfl
  | cons f frames ih =>
    refine (disciplined_put (h f List.mem_cons_self)).bind fun _ mine' gone' heq => ?_
    refine (ih fun g hg => ?_).mono fun _ _ _ heq' => heq'.trans heq
    rw [heq]
    exact h g (List.mem_cons_of_mem _ hg)

theorem dropMappings_disciplined (h : ∀ f ∈ map.frames, f ∈ mine ∪ gone) :
    Disciplined (fun _ _ _ => True) (dropMappings map.mappings) mine gone := by
  rw [dropMappings_eq]
  refine (pfreeAll_disciplined fun f hf => ?_).mono fun _ _ _ _ => trivial
  obtain ⟨m, hm, rfl⟩ := List.mem_map.mp hf
  exact h _ (List.mem_map_of_mem (List.mem_of_mem_filter hm))

/-- A successful `allocate` holds the frames of the map; a failed one has given some back. -/
theorem allocateFrom_disciplined {vadr : Page} {flags : PageTableFlags} {n i : ℕ}
    {frames : List PhysFrame} (hframes : ∀ f ∈ frames, f ∈ map.frames)
    (hmap : ∀ f ∈ map.frames, f ∈ mine) :
    Disciplined (fun res mine' gone' => (∀ f ∈ res.2.frames, f ∈ mine' ∪ gone') ∧
        (res.1 ≠ none → gone' = ∅))
      (MemoryMap.allocateFrom vadr flags n i frames map) mine ∅ := by
  -- induction on the pages that have no frame yet; every frame taken so far is in the map
  induction n generalizing i frames map mine with
  | zero => exact disciplined_pure ⟨fun f hf => .inl (hmap f hf), fun _ => rfl⟩
  | succ n ih =>
    refine (disciplined_get (Q := fun r mine' gone' => gone' = ∅ ∧ (∀ f ∈ map.frames, f ∈ mine') ∧
      ∀ f, r = some f → f ∈ mine') (fun f _ => ⟨rfl, fun g hg => .inr (hmap g hg), ?_⟩)
      ⟨rfl, hmap, by simp⟩).bind ?_
    · exact fun g hg => .inl (Option.some.inj hg).symm
    · rintro r mine' _ ⟨rfl, hmap', hr⟩
      cases r with
      -- what is given back on a failure was taken by this call
      | none =>
        refine (pfreeAll_disciplined fun f hf => .inl (hmap' f (hframes f hf))).bind ?_
        intro _ mine'' gone'' heq
        refine disciplined_pure ⟨fun f hf => ?_, fun hne => absurd rfl hne⟩
        rw [heq]
        exact .inl (hmap' f hf)
      | some f =>
        refine (disciplined_lift (Q := fun _ m g => m = mine' ∧ g = ∅)
          fun _ _ => ⟨rfl, rfl⟩).bind ?_
        rintro page _ _ ⟨rfl, rfl⟩
        refine ih (fun g hg => ?_) fun g hg => ?_
        · rw [MemoryMap.frames_addRaw]
          exact List.mem_append.mpr ((List.mem_append.mp hg).imp_left (hframes g))
        · rw [MemoryMap.frames_addRaw] at hg
          rcases List.mem_append.mp hg with hg | hg
          · exact hmap' g hg
          · exact List.mem_singleton.mp hg ▸ hr f rfl

theorem tmpLocalReserve_atMost (core offset : ℕ) (frames : List PhysFrame) (vm : Vm) :
    AtMost (3 * frames.length) (tmpLocalReserve core offset frames vm) := by
  refine .lift_bind fun page _ => ?_
  refine (vmapMany_atMost vm page frames .WRITABLE).bind (n := 0) fun vm₁ => ?_
  exact .lift_bind fun _ _ => by simp

/-- The work on the window of the core takes frames for page tables, and gives none back. -/
theorem window_disciplined {n : ℕ} {α : Type} {x : Kernel α} (hx : AtMost n x)
    {k : α → Kernel Loaded} (hmap : ∀ f ∈ map.frames, f ∈ mine)
    (hk : ∀ a mine', (∀ f ∈ map.frames, f ∈ mine') → Disciplined Holds (k a) mine' ∅) :
    Disciplined Holds (x >>= k) mine ∅ := by
  refine hx.disciplined.bind ?_
  rintro a mine' _ ⟨hsub, rfl⟩
  exact hk a mine' fun f hf => hsub (hmap f hf)

theorem holds_ok (hmap : ∀ f ∈ map.frames, f ∈ mine) (vm : Vm) : Holds (.ok (), map, vm) mine ∅ :=
  ⟨fun f hf => .inl (hmap f hf), fun _ => rfl⟩

theorem holds_error (e : ExecResult) (hmap : ∀ f ∈ map.frames, f ∈ mine ∪ gone) (vm : Vm) :
    Holds (.error e, map, vm) mine gone :=
  ⟨hmap, by simp⟩

theorem loadContent_disciplined {entry : ProgramHeader} {content : List (BitVec 8)}
    (hmap : ∀ f ∈ map.frames, f ∈ mine) :
    Disciplined Holds (loadContent core entry content map vm) mine ∅ := by
  refine window_disciplined (atMost_lift 0 _) hmap fun stop mine hmap => ?_
  refine window_disciplined (atMost_lift 0 _) hmap fun bytes mine hmap => ?_
  refine window_disciplined (atMost_lift 0 _) hmap fun size mine hmap => ?_
  refine (allocateFrom_disciplined (by simp) hmap).bind ?_
  rintro ⟨frames, map₁⟩ mine₁ gone₁ ⟨hmap₁, hgone⟩
  cases frames with
  | none => exact disciplined_pure (holds_error _ hmap₁ _)
  | some frames =>
    obtain rfl := hgone (by simp)
    simp only [Set.union_empty] at hmap₁
    refine window_disciplined (atMost_lift 0 _) hmap₁ fun offset mine hmap => ?_
    refine window_disciplined (tmpLocalReserve_atMost _ _ _ _) hmap fun ptr mine hmap => ?_
    refine window_disciplined (atMost_lift 0 _) hmap fun vm₁ mine hmap => ?_
    split
    · exact disciplined_fail _
    · refine window_disciplined (atMost_lift 0 _) hmap fun vm₂ mine hmap => ?_
      exact disciplined_pure (holds_ok hmap _)

/-- The early returns of the checks hold what the map holds. -/
theorem loadSegment_disciplined {elf : ElfFile} {entry : ProgramHeader}
    (hmap : ∀ f ∈ map.frames, f ∈ mine) :
    Disciplined Holds (loadSegment core elf entry map vm) mine ∅ := by
  have herror : ∀ {mine} e, (∀ f ∈ map.frames, f ∈ mine) →
      Disciplined Holds (Pure.pure (.error e, map, vm) : Kernel Loaded) mine ∅ := fun e hmap =>
    disciplined_pure (holds_error e (fun f hf => .inl (hmap f hf)) vm)
  unfold loadSegment
  split
  · exact herror _ hmap
  · refine window_disciplined (atMost_lift 0 _) hmap fun stop mine hmap => ?_
    split
    · exact herror _ hmap
    · split
      · exact herror _ hmap
      · refine window_disciplined (atMost_lift 0 _) hmap fun content mine hmap => ?_
        cases content with
        | none => exact herror _ hmap
        | some content => exact loadContent_disciplined hmap

theorem loadFrom_disciplined {elf : ElfFile} {n index : ℕ} (hmap : ∀ f ∈ map.frames, f ∈ mine) :
    Disciplined Holds (loadFrom core elf n index map vm) mine ∅ := by
  induction n generalizing index map vm mine with
  | zero => exact disciplined_pure (holds_ok hmap vm)
  | succ n ih =>
    refine window_disciplined (atMost_lift 0 _) hmap fun entry mine hmap => ?_
    split
    · refine (loadSegment_disciplined hmap).bind ?_
      rintro ⟨r, map₁, vm₁⟩ mine₁ gone₁ ⟨hmap₁, hgone⟩
      cases r with
      | error e => exact disciplined_pure (holds_error e hmap₁ vm₁)
      | ok u =>
        obtain rfl := hgone rfl
        simp only [Set.union_empty] at hmap₁
        exact ih hmap₁
    · exact ih hmap

theorem loadStack_disciplined (hmap : ∀ f ∈ map.frames, f ∈ mine) :
    Disciplined Holds (loadStack core map vm) mine ∅ := by
  refine (allocateFrom_disciplined (by simp) hmap).bind ?_
  rintro ⟨frames, map₁⟩ mine₁ gone₁ ⟨hmap₁, hgone⟩
  cases frames with
  | none => exact disciplined_pure (holds_error _ hmap₁ _)
  | some frames =>
    obtain rfl := hgone (by simp)
    simp only [Set.union_empty] at hmap₁
    refine window_disciplined (tmpLocalReserve_atMost _ _ _ _) hmap₁ fun ptr mine hmap => ?_
    refine window_disciplined (atMost_lift 0 _) hmap fun vm₁ mine hmap => ?_
    exact disciplined_pure (holds_ok hmap _)

theorem load_disciplined {elf : ElfFile} : Disciplined Holds (load core elf vm) mine ∅ := by
  refine (loadFrom_disciplined (by simp [MemoryMap.new, MemoryMap.frames])).bind ?_
  rintro ⟨r, map₁, vm₁⟩ mine₁ gone₁ ⟨hmap₁, hgone⟩
  cases r with
  | error e => exact disciplined_pure (holds_error e hmap₁ vm₁)
  | ok u =>
    obtain rfl := hgone rfl
    simp only [Set.union_empty] at hmap₁
    exact loadStack_disciplined hmap₁

/-- **What `exec` frees it holds, or has freed since its last `palloc`.** A frame may be freed a
second time, but `exec` has not allocated in between. -/
theorem exec_disciplined {elf : ElfFile} {sys : System} :
    Disciplined (fun _ _ _ => True) (exec core elf sys) mine ∅ := by
  refine load_disciplined.bind ?_
  rintro ⟨r, map₁, vm₁⟩ mine₁ gone₁ ⟨hmap₁, -⟩
  cases r with
  | error e => exact (dropMappings_disciplined hmap₁).bind fun _ _ _ _ => disciplined_pure trivial
  | ok u =>
    exact (disciplined_lift (Q := fun _ _ _ => True) fun _ _ => trivial).bind fun _ _ _ _ =>
      disciplined_pure trivial

end Discipline

/-! ## Other cores -/

section Owners

variable {κ : Type} [DecidableEq κ] {core : ℕ} {elf : ElfFile} {sys : System}
  {pmm : PhysicalFrameAllocator} {theirs : κ → Set PhysFrame}

/-- The core that runs `exec` next to the frames that the other cores hold. -/
def execConfig (core : ℕ) (elf : ElfFile) (sys : System) (pmm : PhysicalFrameAllocator)
    (theirs : κ → Set PhysFrame) :
    Config PhysicalFrameAllocator PhysFrame Panic (ExecResult × System) κ :=
  ⟨pmm, exec core elf sys, ∅, theirs⟩

/-- **Frames stay with their owners** in every interleaving in which no other core calls `palloc`
while `exec` is about to free a frame that it does not hold any more: from the `pfree_all` of a
failed `MemoryMap::allocate` to the end of the drop of the map. -/
theorem exec_frames_owned
    {c : Config PhysicalFrameAllocator PhysFrame Panic (ExecResult × System) κ} (hsound : pmm.Sound)
    (htheirs : ∀ o, ∀ f ∈ theirs o, f ∈ pmm.managed ∧ f ∉ pmm.free)
    (hapart : ∀ o o', ∀ f ∈ theirs o, f ∈ theirs o' → o = o')
    (hrun : Interleaves PhysicalFrameAllocator.pool Config.NoReRelease
      (execConfig core elf sys pmm theirs) c) :
    (∀ f ∈ c.mine, f ∉ c.pool.free) ∧ (∀ o, ∀ f ∈ c.theirs o, f ∉ c.pool.free) ∧
      (∀ o, ∀ f ∈ c.theirs o, f ∉ c.mine) ∧
      ∀ o o', ∀ f ∈ c.theirs o, f ∈ c.theirs o' → o = o' := by
  have hdisc : Disciplined (fun _ _ _ => True) (exec core elf sys) ∅ ∅ := exec_disciplined
  -- `exec` starts with nothing, and the others with frames of their own
  have hstart : (execConfig core elf sys pmm theirs).Owned PhysicalFrameAllocator.freeSet := {
    sound := hsound
    mine_taken := by simp [execConfig]
    theirs_taken := htheirs
    apart := by simp [execConfig]
    apart' := hapart
    disciplined := ⟨∅, hdisc⟩
    again := fun f hf => by
      rcases hdisc.pending_subset f hf with hmine | hgone
      · exact .inl hmine
      · exact absurd hgone (Set.notMem_empty f) }
  have howned := hrun.owned hstart
  exact ⟨fun f hf => (howned.mine_taken f hf).2, fun o f hf => (howned.theirs_taken o f hf).2,
    howned.apart, howned.apart'⟩

end Owners

/-! ## Two frames of memory -/

section TwoFrames

theorem take_none : (threePagesPmm 0xffffffffffffffff).allocateFrame =
    .ok (none, threePagesPmm 0xffffffffffffffff) := by decide +kernel

theorem give_first : (threePagesPmm 0xffffffffffffffff).deallocateFrame firstFrame =
    .ok (threePagesPmm 0xfffffffffffffffe) := by decide +kernel

theorem retake_first : (threePagesPmm 0xfffffffffffffffe).allocateFrame =
    .ok (some firstFrame, threePagesPmm 0xffffffffffffffff) := by decide +kernel

theorem give_second : (threePagesPmm 0xffffffffffffffff).deallocateFrame secondFrame =
    .ok (threePagesPmm 0xfffffffffffffffd) := by decide +kernel

theorem give_first_again : (threePagesPmm 0xfffffffffffffffe).deallocateFrame firstFrame =
    .ok (threePagesPmm 0xfffffffffffffffe) := by decide +kernel

theorem regive_first : (threePagesPmm 0xfffffffffffffffd).deallocateFrame firstFrame =
    .ok (threePagesPmm 0xfffffffffffffffc) := by decide +kernel

theorem threePagesPmm_sound : (threePagesPmm 0xfffffffffffffffc).Sound :=
  (init_sound (oneRegion_regular 3) init_threePages).1

/-- Another core takes the second frame before `exec` runs out of memory, and keeps it. -/
theorem exec_frames_owned_two :
    ∃ c : Config PhysicalFrameAllocator PhysFrame Panic (ExecResult × System) Unit,
      (threePagesPmm 0xfffffffffffffffc).Sound ∧
      Interleaves PhysicalFrameAllocator.pool Config.NoReRelease
        (execConfig 0 bareElf bootSystem (threePagesPmm 0xfffffffffffffffc) fun _ : Unit => ∅) c ∧
      secondFrame ∈ c.theirs () ∧ secondFrame ∉ c.pool.free := by
  have h₀ : Interleaves PhysicalFrameAllocator.pool Config.NoReRelease
    (execConfig 0 bareElf bootSystem (threePagesPmm 0xfffffffffffffffc) fun _ : Unit => ∅)
    _ := .refl _
  have h₁ := h₀.tail (.take rfl take_first)
  have h₂ := h₁.tail (.otherTake () (by intro f hf; cases hf) take_second)
  have h₃ := h₂.tail (.refused rfl take_none)
  have h₄ := h₃.tail (.give rfl give_first)
  have h₅ := h₄.tail (.give rfl give_first_again)
  have howned := exec_frames_owned threePagesPmm_sound (by simp) (by simp) h₅
  exact ⟨_, threePagesPmm_sound, h₅, by simp, howned.2.1 () _ (by simp)⟩

/-- `exec` runs out of memory after two pages of its stack.  Another core obtains the first frame
that is given back, and the drop of the map frees it. -/
theorem exec_frees_foreign_frame :
    (threePagesPmm 0xfffffffffffffffc).Sound ∧
      ∃ c f, Interleaves PhysicalFrameAllocator.pool (fun _ => True)
        (execConfig 0 bareElf bootSystem (threePagesPmm 0xfffffffffffffffc) fun _ : Unit => ∅) c ∧
        f ∈ c.theirs () ∧ f ∈ c.pool.free := by
  have h₀ : Interleaves PhysicalFrameAllocator.pool (fun _ => True)
    (execConfig 0 bareElf bootSystem (threePagesPmm 0xfffffffffffffffc) fun _ : Unit => ∅)
    _ := .refl _
  have h₁ := h₀.tail (.take rfl take_first)
  have h₂ := h₁.tail (.take rfl take_second)
  have h₃ := h₂.tail (.refused rfl take_none)
  have h₄ := h₃.tail (.give rfl give_first)
  have h₅ := h₄.tail (.otherTake () trivial retake_first)
  have h₆ := h₅.tail (.give rfl give_second)
  have h₇ := h₆.tail (.give rfl regive_first)
  refine ⟨threePagesPmm_sound, _, firstFrame, h₇, ?_, ?_⟩
  · simp
  · exact (PhysicalFrameAllocator.allocateFrame_some threePagesPmm_sound take_first).1

end TwoFrames

end HeliumOS.Proc
