import HeliumOS.Lib.ByteMemory
import HeliumOS.Mem.Alloc
import HeliumOS.Mem.Virt.Changes

/-!
# Data behind Virtual Addresses

Byte stores of the kernel through a virtual address: the address is translated, and one byte of
the word in the frame behind it is replaced.

- `storeBytes_backs`: stores into pages that show frames of their own return, and change nothing
  but these frames.
- `DataOnly` is that kind of change.  Page tables, windows and translations do not see it.
- `storeBytes_content` says what is in the frames afterwards, byte by byte.
- The mapper does the converse: it writes to page tables only (`KeepsData`, `map_keepsData`).
- Where virtual bytes cover physical ones (`Covers`), loads read physical memory.
-/

namespace HeliumOS.Mem

open HeliumOS.Lib HeliumOS.Lib.AllocProg HeliumOS.Lib.Radix HeliumOS.Mem.Virt

/-! ## Stores -/

/-- A word with its byte `k` replaced. -/
def setByte (w : BitVec 64) (k : ℕ) (b : BitVec 8) : BitVec 64 :=
  w &&& ~~~(0xff#64 <<< (8 * k)) ||| b.setWidth 64 <<< (8 * k)

/-- Byte `k` of a word. -/
def getByte (w : BitVec 64) (k : ℕ) : BitVec 8 := (w >>> (8 * k)).setWidth 8

/-- Replacing a byte changes that byte and no other. -/
theorem getByte_setByte (w : BitVec 64) {k k' : ℕ} (hk : k < 8) (hk' : k' < 8) (b : BitVec 8) :
    getByte (setByte w k b) k' = if k' = k then b else getByte w k' := by
  have hmask : ∀ i, (0xff#64).getLsbD i = decide (i < 8) := by
    intro i
    by_cases hi : i < 64
    · revert i
      decide
    · rw [BitVec.getLsbD_of_ge _ i (by omega)]
      simp
      omega
  -- bit by bit, with the mask as a bound on the index
  apply BitVec.eq_of_getLsbD_eq
  intro i hi
  simp only [getByte, setByte, BitVec.getLsbD_setWidth, BitVec.getLsbD_ushiftRight,
    BitVec.getLsbD_or, BitVec.getLsbD_and, BitVec.getLsbD_not, BitVec.getLsbD_shiftLeft, hmask]
  split_ifs with heq
  · subst heq
    have h₁ : ¬ (8 * k' + i < 8 * k') := by omega
    have h₂ : 8 * k' + i - 8 * k' = i := by omega
    simp [h₁, h₂, hi, show 8 * k' + i < 64 by omega, show i < 64 by omega]
  · -- the byte lies below or above the one that was replaced
    rcases Nat.lt_or_gt_of_ne heq with hlt | hgt
    · simp [hi, show 8 * k' + i < 64 by omega, show 8 * k' + i < 8 * k by omega]
    · have hge : ¬ (8 * k' + i - 8 * k < 8) := by omega
      simp [hi, show 8 * k' + i < 64 by omega, hge,
        BitVec.getLsbD_of_ge b (8 * k' + i - 8 * k) (by omega)]

theorem word_index_lt (adr : ℕ) : adr % pageSize / 8 < 512 := by
  simp only [pageSize]
  omega

/-- Store one byte at a virtual address. -/
def storeByte (vm : Vm) (adr : ℕ) (b : BitVec 8) : Except Panic Vm :=
  if h : adr / pageSize < 2 ^ 35 ∨ 2 ^ 52 - 2 ^ 35 ≤ adr / pageSize ∧
    adr / pageSize < 2 ^ 52 then do
    let f ← vm.frameOf ⟨adr / pageSize, h⟩
    let i : Fin 512 := ⟨adr % pageSize / 8, word_index_lt adr⟩
    .ok (vm.setEntry f i (setByte (vm.mem f i) (adr % 8) b))
  else .error .pageFault

/-- The byte of a frame at an offset, or at an address with that offset. -/
def frameByte (vm : Vm) (f : PhysFrame) (adr : ℕ) : BitVec 8 :=
  getByte (vm.mem f ⟨adr % pageSize / 8, word_index_lt adr⟩) (adr % 8)

/-- Load one byte from a virtual address. -/
def loadByte (vm : Vm) (adr : ℕ) : Except Panic (BitVec 8) :=
  if h : adr / pageSize < 2 ^ 35 ∨ 2 ^ 52 - 2 ^ 35 ≤ adr / pageSize ∧
    adr / pageSize < 2 ^ 52 then do
    let f ← vm.frameOf ⟨adr / pageSize, h⟩
    .ok (frameByte vm f adr)
  else .error .pageFault

/-- The bytes from a virtual address on. -/
def loadBytes (vm : Vm) : ℕ → ℕ → Except Panic (List (BitVec 8))
  | _, 0 => .ok []
  | adr, n + 1 => do
    let b ← loadByte vm adr
    let bs ← loadBytes vm (adr + 1) n
    .ok (b :: bs)

/-- Store bytes from a virtual address on. -/
def storeBytes : List (BitVec 8) → ℕ → Vm → Except Panic Vm
  | [], _, vm => .ok vm
  | b :: bs, adr, vm => do
    let vm ← storeByte vm adr b
    storeBytes bs (adr + 1) vm

/-! ## Changes of data -/

/-- Only the contents of the frames in `S` differ. -/
structure DataOnly (vm vm' : Vm) (S : Set PhysFrame) : Prop where
  mem : ∀ f ∉ S, vm'.mem f = vm.mem f
  cr3 : vm'.cr3 = vm.cr3
  p1 : vm'.p1 = vm.p1
  vcacheState : vm'.vcacheState = vm.vcacheState
  p4table : vm'.p4table = vm.p4table

namespace DataOnly

variable {vm vm' vm'' : Vm} {S : Set PhysFrame} {F : Set PhysFrame}

theorem refl (vm : Vm) (S : Set PhysFrame) : DataOnly vm vm S :=
  ⟨fun _ _ => rfl, rfl, rfl, rfl, rfl⟩

theorem trans (h : DataOnly vm vm' S) (h' : DataOnly vm' vm'' S) : DataOnly vm vm'' S :=
  ⟨fun f hf => (h'.mem f hf).trans (h.mem f hf), h'.cr3.trans h.cr3, h'.p1.trans h.p1,
    h'.vcacheState.trans h.vcacheState, h'.p4table.trans h.p4table⟩

theorem setEntry {f : PhysFrame} (hf : f ∈ S) (i : Fin 512) (w : BitVec 64) :
    DataOnly vm (vm.setEntry f i w) S :=
  ⟨fun _ hg => Store.set_of_ne vm.mem i w fun hne => hg (hne ▸ hf), rfl, rfl, rfl, rfl⟩

variable (h : DataOnly vm vm' S) (hS : Disjoint S vm.tables)
include h hS

theorem mem_table {f : PhysFrame} (hf : f ∈ vm.tables) : vm'.mem f = vm.mem f :=
  h.mem f fun hmem => Set.disjoint_left.mp hS hmem hf

theorem agreeAbove : AgreeAbove PageTableEntry.frame vm.mem vm'.mem vm.cr3 3 :=
  fun _ _ hp hw => h.mem_table hS (mem_tables_of_walk hw hp.le)

theorem translate_eq (q : Page) : vm'.translate q = vm.translate q := by
  rw [Vm.translate, Vm.translate, h.cr3, (h.agreeAbove hS).stop_eq q.path_length fun t ht => ?_]
  rw [h.mem_table hS (mem_tables_of_walk ht q.path_length.le)]

theorem tables_eq : vm'.tables = vm.tables := by
  rw [Vm.tables, Vm.tables, h.cr3, (h.agreeAbove hS).tables_eq]

theorem vcache_eq (hinv : vm.Inv) : vm'.vcache = vm.vcache := by
  have hp1 : ∀ i, vm'.mem (vm.p1 i) = vm.mem (vm.p1 i) := fun i =>
    h.mem_table hS (mem_tables_of_walk (hinv.wired i) (by simp [Vm.areaPath]))
  simp only [Vm.vcache, h.p1, h.vcacheState, hp1]

/-- The mapper does not see a change of data. -/
theorem evolves (hinv : vm.Inv) : Evolves vm vm' F F ∅ := by
  refine evolves_of_agree hinv h.cr3 h.p1 h.p4table (h.agreeAbove hS) ?_ fun q t _ _ ht => ?_
  · rintro s - ⟨hshows, hage⟩
    have hentry : vm'.entry s = vm.entry s := by
      have := congrArg (fun vc => vc.p1 s.1 s.2) (h.vcache_eq hS hinv)
      exact this
    rw [Vm.Open, Vm.Shows, hentry, h.vcacheState]
    exact ⟨hshows, hage⟩
  · rw [h.mem_table hS (mem_tables_of_walk ht q.path_length.le)]

theorem ready (hready : vm.Ready) : vm'.Ready := by
  have hev := h.evolves (F := ∅) hS hready.inv
  have hvc := h.vcache_eq hS hready.inv
  exact ⟨hev.inv, hev.clean hready.clean, hvc ▸ hready.counted, hvc ▸ hready.room⟩

end DataOnly

/-! ## Stores into pages of known frames -/

section Stores

variable {vm : Vm} {page : Page} {frames : List PhysFrame}

theorem Backs.of_dataOnly {vm' : Vm} (hbacks : Backs vm page 0 frames)
    (hdata : DataOnly vm vm' {f | f ∈ frames}) (hframes : Disjoint {f | f ∈ frames} vm.tables) :
    Backs vm' page 0 frames := fun k f hf => by
  obtain ⟨q, flags, hq, htrans⟩ := hbacks k f hf
  exact ⟨q, flags, hq, (hdata.translate_eq hframes q).trans htrans⟩

theorem storeByte_backs (hbacks : Backs vm page 0 frames) {adr : ℕ}
    (hlo : page.startAddress ≤ adr)
    (hhi : adr < page.startAddress + frames.length * pageSize) (b : BitVec 8) :
    ∃ vm', storeByte vm adr b = .ok vm' ∧ DataOnly vm vm' {f | f ∈ frames} := by
  simp only [Page.startAddress, pageSize] at hlo hhi
  have hk : adr / 4096 - page.num < frames.length := by omega
  obtain ⟨q, flags, hq, htrans⟩ := hbacks _ _ (List.getElem?_eq_getElem hk)
  have hnum : q.num = adr / pageSize := by
    rw [Page.add_eq_ok] at hq
    simp only [pageSize]
    omega
  have hpage : (⟨adr / pageSize, hnum ▸ q.canonical⟩ : Page) = q := Page.ext hnum.symm
  unfold storeByte
  rw [dif_pos (hnum ▸ q.canonical), hpage, Vm.frameOf, htrans]
  exact ⟨_, rfl, .setEntry (List.getElem_mem hk) _ _⟩

/-- The bytes of the frames after one byte of a word has been replaced. -/
theorem frameByte_setByte (vm : Vm) (f g : PhysFrame) (adr o : ℕ) (b : BitVec 8) :
    frameByte (vm.setEntry f ⟨adr % pageSize / 8, word_index_lt adr⟩
        (setByte (vm.mem f ⟨adr % pageSize / 8, word_index_lt adr⟩) (adr % 8) b)) g o =
      if g = f ∧ o % pageSize = adr % pageSize then b else frameByte vm g o := by
  simp only [frameByte, Vm.setEntry, Store.set_apply, Fin.mk.injEq]
  -- the store replaces a word; only one of its bytes is new
  by_cases hword : g = f ∧ o % pageSize / 8 = adr % pageSize / 8
  · obtain ⟨rfl, hindex⟩ := hword
    have hiff : o % 8 = adr % 8 ↔ o % pageSize = adr % pageSize := by
      simp only [pageSize] at hindex ⊢
      omega
    simp only [hindex, and_self, if_true, true_and]
    rw [getByte_setByte _ (Nat.mod_lt _ (by decide)) (Nat.mod_lt _ (by decide))]
    simp only [hiff]
  · have hnot : ¬ (g = f ∧ o % pageSize = adr % pageSize) := fun h => hword ⟨h.1, by rw [h.2]⟩
    rw [if_neg hword, if_neg hnot]

/-- Where a byte goes: into the frame behind its page, at its offset. -/
theorem storeByte_content (hbacks : Backs vm page 0 frames) {off : ℕ} {b : BitVec 8} {vm' : Vm}
    {f : PhysFrame} (hf : frames[off / pageSize]? = some f)
    (h : storeByte vm (page.startAddress + off) b = .ok vm') (g : PhysFrame) (o : ℕ) :
    frameByte vm' g o = if g = f ∧ o % pageSize = off % pageSize then b else frameByte vm g o := by
  obtain ⟨q, flags, hq, htrans⟩ := hbacks _ _ hf
  -- the page of the address is the one that backs this offset
  have hnum : q.num = (page.startAddress + off) / pageSize := by
    rw [Page.add_eq_ok] at hq
    simp only [Page.startAddress, pageSize] at hq ⊢
    omega
  have hpage : (⟨(page.startAddress + off) / pageSize, hnum ▸ q.canonical⟩ : Page) = q :=
    Page.ext hnum.symm
  unfold storeByte at h
  rw [dif_pos (hnum ▸ q.canonical), hpage, Vm.frameOf, htrans] at h
  obtain rfl := Except.ok.inj h
  have hoff : (page.startAddress + off) % pageSize = off % pageSize := by
    simp only [Page.startAddress, pageSize]
    omega
  rw [frameByte_setByte, hoff]

/-- Stores into pages that show frames outside the page tables. -/
theorem storeBytes_backs (hbacks : Backs vm page 0 frames)
    (hframes : Disjoint {f | f ∈ frames} vm.tables) {bytes : List (BitVec 8)} {adr : ℕ}
    (hlo : page.startAddress ≤ adr)
    (hhi : adr + bytes.length ≤ page.startAddress + frames.length * pageSize) :
    ∃ vm', storeBytes bytes adr vm = .ok vm' ∧ DataOnly vm vm' {f | f ∈ frames} := by
  induction bytes generalizing adr vm with
  | nil => exact ⟨vm, rfl, .refl vm _⟩
  | cons b bytes ih =>
    rw [List.length_cons] at hhi
    obtain ⟨vm₁, hstore, hdata⟩ := storeByte_backs hbacks hlo (by omega) b
    have hbacks₁ := hbacks.of_dataOnly hdata hframes
    have hframes₁ := hdata.tables_eq hframes ▸ hframes
    have hlo₁ : page.startAddress ≤ adr + 1 := by omega
    obtain ⟨vm₂, hrest, hdata'⟩ := ih hbacks₁ hframes₁ hlo₁ (by omega)
    refine ⟨vm₂, ?_, hdata.trans hdata'⟩
    rw [storeBytes, hstore, except_ok_bind, hrest]

/-- The bytes of the frames after stores from offset `off` of the first page on: inside of the range
they are the bytes that were stored, and outside they are what they were. -/
theorem storeBytes_content (hbacks : Backs vm page 0 frames)
    (hframes : Disjoint {f | f ∈ frames} vm.tables) (hnodup : frames.Nodup)
    {bytes : List (BitVec 8)} {off : ℕ} {vm' : Vm}
    (hlen : off + bytes.length ≤ frames.length * pageSize)
    (h : storeBytes bytes (page.startAddress + off) vm = .ok vm') {k : ℕ} {f : PhysFrame}
    (hf : frames[k]? = some f) {o : ℕ} (ho : o < pageSize) :
    frameByte vm' f o =
      if off ≤ k * pageSize + o ∧ k * pageSize + o < off + bytes.length then
        bytes.getD (k * pageSize + o - off) 0
      else frameByte vm f o := by
  induction bytes generalizing off vm with
  | nil =>
    obtain rfl := Except.ok.inj h
    rw [if_neg (by simp)]
  | cons b bytes ih =>
    rw [List.length_cons] at hlen
    rw [storeBytes, except_bind_eq_ok] at h
    obtain ⟨vm₁, hstore, hrest⟩ := h
    have hk : off / pageSize < frames.length := by
      simp only [pageSize] at hlen ⊢
      omega
    have hcell := List.getElem?_eq_getElem hk
    obtain ⟨vm₁', hstore', hdata⟩ := storeByte_backs hbacks
      (Nat.le_add_right page.startAddress off) (by simp only [pageSize] at hlen ⊢; omega) b
    obtain rfl := Except.ok.inj (hstore.symm.trans hstore')
    have hbacks₁ : Backs vm₁ page 0 frames := hbacks.of_dataOnly hdata hframes
    rw [Nat.add_assoc] at hrest
    rw [ih hbacks₁ (hdata.tables_eq hframes ▸ hframes) (by omega) hrest,
      storeByte_content hbacks hcell hstore f o, List.length_cons]
    -- no frame is in the list twice, so that a byte of a frame has one offset in the range
    have hfirst : f = frames[off / pageSize] ∧ o % pageSize = off % pageSize ↔
        k * pageSize + o = off := by
      obtain ⟨hk', rfl⟩ := List.getElem?_eq_some_iff.mp hf
      rw [hnodup.getElem_inj_iff]
      simp only [pageSize] at ho ⊢
      omega
    simp only [hfirst]
    -- the first byte, one of the others, or a byte that is left alone
    rcases Nat.lt_trichotomy off (k * pageSize + o) with hlt | heq | hgt
    · have hsucc : k * pageSize + o - off = k * pageSize + o - (off + 1) + 1 := by omega
      rw [if_neg hlt.ne', hsucc, List.getD_cons_succ]
      exact if_congr (by omega) rfl rfl
    · rw [if_neg (by omega), if_pos heq.symm, if_pos (by omega), ← heq, Nat.sub_self,
        List.getD_cons_zero]
    · rw [if_neg (by omega), if_neg hgt.ne, if_neg (by omega)]

theorem Workable.of_dataOnly {vm' : Vm} {F S : Set PhysFrame} {m : ℕ} (h : Workable m vm F)
    (hdata : DataOnly vm vm' S) (hS : Disjoint S vm.tables) : Workable m vm' F :=
  ⟨hdata.ready hS h.ready, hdata.tables_eq hS ▸ h.fresh, h.free⟩

/-- Stores into pages that show frames outside the page tables return. -/
theorem Workable.storeBytes {M F : Set PhysFrame} {m : ℕ} {bytes : List (BitVec 8)} {off : ℕ}
    (h : Workable m vm F) (hbacks : Backs vm page 0 frames)
    (hframes : Disjoint {f | f ∈ frames} vm.tables)
    (hlen : off + bytes.length ≤ frames.length * pageSize) :
    Ensures M (liftM (Mem.storeBytes bytes (page.startAddress + off) vm) : Kernel Vm) F
    fun vm' F' =>
      Workable m vm' F' ∧ Backs vm' page 0 frames ∧ Disjoint {f | f ∈ frames} vm'.tables := by
  have hend : page.startAddress + off + bytes.length ≤
      page.startAddress + frames.length * pageSize := by omega
  obtain ⟨vm', hstore, hdata⟩ :=
    storeBytes_backs hbacks hframes (Nat.le_add_right page.startAddress off) hend
  exact ensures_lift hstore ⟨h.of_dataOnly hdata hframes,
    hbacks.of_dataOnly hdata hframes, hdata.tables_eq hframes ▸ hframes⟩

end Stores

/-! ## Writes of the mapper -/

/-- No frame is written to but page tables. -/
def KeepsData (vm vm' : Vm) : Prop := ∀ f ∉ vm'.tables, vm'.mem f = vm.mem f

section KeepsData

variable {vm vm' vm'' : Vm} {M F F' : Set PhysFrame} {P : Set Page} {page : Page}

theorem KeepsData.refl (vm : Vm) : KeepsData vm vm := fun _ _ => rfl

/-- Writes to tables, one after the other: a table of the first step is still a table after the
second. -/
theorem KeepsData.trans (h : KeepsData vm vm') (h' : KeepsData vm' vm'')
    (hsub : vm'.tables ⊆ vm''.tables) : KeepsData vm vm'' := fun f hf =>
  (h' f hf).trans (h f fun hmem => hf (hsub hmem))

theorem keepsData_setEntry {f : PhysFrame} {i : Fin 512} {w : BitVec 64}
    (hf : f ∈ (vm.setEntry f i w).tables) : KeepsData vm (vm.setEntry f i w) := fun _ hg =>
  Store.set_of_ne vm.mem i w fun heq => hg (heq ▸ hf)

/-- Each of the three changes that the mapper makes is a write to tables. -/
theorem Virt.Change.Step.keepsData {s₀ s₁ : Window} {x x' : VmFree} {c : Change}
    (h : Change.Step s₀ s₁ x c x') (hx : Working s₀ s₁ x) : KeepsData x.1 x'.1 := by
  have hev := (h.evolves hx).1
  cases h with
  -- windows are entries of the P1 tables
  | @repoint vm F s g hs =>
    have hp1 : vm.p1 s.1 ∈ vm.tables :=
      mem_tables_of_walk (hx.inv.wired s.1) (by simp [Vm.areaPath])
    exact keepsData_setEntry (hev.tables_subset hp1)
  | @link vm F page p f g i hwalk hpath hunused hg =>
    -- both the table that is linked into and the new one, which is cleared, are tables now
    have hsite := hx.linkSite hwalk hpath hunused hg
    have hlen := length_lt_of_prefix_path hpath
    have hf := hev.tables_subset (mem_tables_of_walk hwalk hlen.le)
    have hg' : g ∈ (vm.linkTable f i (.ofFrame g (tableFlags page)) g).tables :=
      mem_tables_of_walk hsite.walk_fresh (by rw [List.length_append, List.length_singleton]; omega)
    intro h hh
    have hne : h ≠ f := by
      rintro rfl
      exact hh hf
    have hne' : h ≠ g := by
      rintro rfl
      exact hh hg'
    funext j
    refine (link_apply_of_ne hne' j).trans ?_
    rw [if_neg fun h => hne h.1]
  | @leaf vm F page t frame flags hpage hwalk =>
    exact keepsData_setEntry (hev.tables_subset (mem_tables_of_walk hwalk page.path_length.le))

theorem tables_withVCache (hinv : vm.Inv) (vc : VCache) : (vm.withVCache vc).tables = vm.tables :=
  (hinv.agree_withVCache vc).tables_eq

theorem keepsData_withVCache (hinv : vm.Inv) (vc : VCache) : KeepsData vm (vm.withVCache vc) := by
  intro f hf
  rw [tables_withVCache hinv] at hf
  refine Vm.withVCache_mem_of_ne fun i heq => hf (heq ▸ ?_)
  exact mem_tables_of_walk (hinv.wired i) (by simp [Vm.areaPath])

/-- A call of `map` writes to page tables only. A frame that is no table after the call has the
contents that it had before. -/
theorem map_keepsData {phys : PhysFrame} {size : ℕ} {flags : PageTableFlags}
    {r : Except KernelMapError Unit} (hinv : vm.Inv) (hfresh : Disjoint F vm.tables)
    (h : Returns M (KernelMapper.map vm page phys size flags) F (r, vm') F') :
    KeepsData vm vm' := by
  obtain ⟨-, -, rfl, -⟩ | ⟨-, -, hout, s₀, s₁, vc, vm₁, vc', hmany, hloop, hunmap, rfl⟩ :=
    map_cases h
  · exact .refl vm'
  · have hx := working_of_mapMany hinv hfresh hmany
    obtain ⟨cs, hrun, -⟩ := mapPages_changes hx (not_inArea_add_zero hout) hloop
    obtain ⟨hx₁, hkeeps⟩ := hx.preserves (I := fun x => KeepsData vm x.1) hrun
      (keepsData_withVCache hinv vc)
      fun y c y' hy hI hc => hI.trans (hc.keepsData hy) (hc.evolves hy).1.tables_subset
    exact hkeeps.trans (keepsData_withVCache hx₁.inv vc') (tables_withVCache hx₁.inv vc').ge

theorem vmapExpect_keepsData {panic : Panic} {frame : PhysFrame} {size : ℕ} {flags : PageTableFlags}
    (hinv : vm.Inv) (hfresh : Disjoint F vm.tables)
    (h : Returns M (vmapExpect panic vm page frame size flags) F vm' F') : KeepsData vm vm' :=
  map_keepsData hinv hfresh (returns_vmapExpect.mp h)

theorem vmapManyFrom_keepsData {frames : List PhysFrame} {i : ℕ} {flags : PageTableFlags}
    (hinv : vm.Inv) (hfresh : Disjoint F vm.tables)
    (h : Returns M (vmapManyFrom page flags frames i vm) F vm' F') : KeepsData vm vm' := by
  induction frames generalizing i vm F with
  | nil =>
    obtain ⟨rfl, rfl⟩ := returns_pure.mp h
    exact .refl _
  | cons frame frames ih =>
    simp only [vmapManyFrom, returns_bind, returns_lift] at h
    obtain ⟨q, F₁, ⟨hq, rfl⟩, vm₁, F₂, hmap, hrest⟩ := h
    obtain ⟨hev, -, -⟩ := vmapExpect_evolves hinv hfresh hmap
    have hev' := (vmapManyFrom_evolves hev.inv (hev.fresh hfresh) hrest).1
    exact (vmapExpect_keepsData hinv hfresh hmap).trans (ih hev.inv (hev.fresh hfresh) hrest)
      hev'.tables_subset

end KeepsData

/-! ## Physical memory through virtual addresses -/

/-- Physical memory by address, with nothing behind the last frame. -/
def physMem (vm : Vm) : ByteMemory := fun a =>
  if h : a / pageSize < 2 ^ 40 then frameByte vm ⟨a / pageSize, h⟩ a else 0

/-- The physical address behind a virtual one. -/
def physOf (vm : Vm) (adr : ℕ) : Option ℕ :=
  if h : adr / pageSize < 2 ^ 35 ∨ 2 ^ 52 - 2 ^ 35 ≤ adr / pageSize ∧ adr / pageSize < 2 ^ 52 then
    (vm.translate ⟨adr / pageSize, h⟩).map fun t => t.frame.num * pageSize + adr % pageSize
  else none

/-- The `n` virtual bytes from `adr` on are the physical bytes from `padr` on. -/
def Covers (vm : Vm) (adr padr n : ℕ) : Prop :=
  ∀ k < n, ∃ (q : Page) (f : PhysFrame) (flags : PageTableFlags), q.num = (adr + k) / pageSize ∧
    f.num = (padr + k) / pageSize ∧ (adr + k) % pageSize = (padr + k) % pageSize ∧
    vm.translate q = some ⟨f, flags⟩

section Covers

variable {vm vm' : Vm} {adr padr n : ℕ}

theorem frameByte_mod (vm : Vm) (f : PhysFrame) (adr : ℕ) :
    frameByte vm f (adr % pageSize) = frameByte vm f adr := by
  have hword : adr % pageSize % pageSize / 8 = adr % pageSize / 8 := by rw [Nat.mod_mod]
  have hbyte : adr % pageSize % 8 = adr % 8 := by
    simp only [pageSize]
    omega
  simp only [frameByte, hword, hbyte]

theorem physMem_eq (vm : Vm) (f : PhysFrame) (adr : ℕ) :
    physMem vm (f.num * pageSize + adr % pageSize) = frameByte vm f adr := by
  have hframe : (f.num * pageSize + adr % pageSize) / pageSize = f.num := by
    simp only [pageSize]
    omega
  have hmod : (f.num * pageSize + adr % pageSize) % pageSize = adr % pageSize := by
    simp only [pageSize]
    omega
  have hlt : (f.num * pageSize + adr % pageSize) / pageSize < 2 ^ 40 := by
    rw [hframe]
    exact f.isLt
  have hphys : (⟨_, hlt⟩ : PhysFrame) = f := PhysFrame.ext hframe
  rw [physMem, dif_pos hlt, hphys, ← frameByte_mod, hmod, frameByte_mod]

theorem physOf_of_translate {q : Page} {f : PhysFrame} {flags : PageTableFlags}
    (h : vm.translate q = some ⟨f, flags⟩) (hq : q.num = adr / pageSize) :
    physOf vm adr = some (f.num * pageSize + adr % pageSize) := by
  have hcanonical := q.canonical
  rw [hq] at hcanonical
  have hpage : (⟨adr / pageSize, hcanonical⟩ : Page) = q := Page.ext hq.symm
  rw [physOf, dif_pos hcanonical, hpage, h, Option.map_some]

theorem loadByte_eq_ok {b : BitVec 8} :
    loadByte vm adr = .ok b ↔ ∃ p, physOf vm adr = some p ∧ b = physMem vm p := by
  unfold loadByte physOf
  split_ifs with h
  · cases htrans : vm.translate ⟨adr / pageSize, h⟩ with
    | none => simp [Vm.frameOf, htrans]
    | some t =>
      rw [Vm.frameOf, htrans, except_ok_bind, Except.ok.injEq]
      simp only [Option.map_some, Option.some.injEq, exists_eq_left', physMem_eq]
      exact eq_comm
  · simp

theorem Covers.physOf {k : ℕ} (h : Covers vm adr padr n) (hk : k < n) :
    physOf vm (adr + k) = some (padr + k) := by
  obtain ⟨q, f, flags, hq, hf, hmod, htrans⟩ := h k hk
  rw [physOf_of_translate htrans hq, hmod, hf, Nat.div_add_mod']

theorem Covers.loadByte {k : ℕ} (h : Covers vm adr padr n) (hk : k < n) :
    loadByte vm (adr + k) = .ok (physMem vm (padr + k)) :=
  loadByte_eq_ok.mpr ⟨_, h.physOf hk, rfl⟩

theorem Covers.loadBytes {i k : ℕ} (h : Covers vm adr padr n) (hk : i + k ≤ n) :
    loadBytes vm (adr + i) k = .ok ((physMem vm).slice (padr + i) k) := by
  induction k generalizing i with
  | zero => rfl
  | succ k ih =>
    have hrest := ih (i := i + 1) (by omega)
    rw [← Nat.add_assoc, ← Nat.add_assoc] at hrest
    rw [Mem.loadBytes, h.loadByte (by omega), except_ok_bind, hrest, except_ok_bind, Nat.add_comm k,
      ByteMemory.slice_add]
    rfl

end Covers

/-! ## Loads and stores of bytes -/

section PhysOf

variable {vm vm' : Vm} {adr : ℕ} {b : BitVec 8} {S : Set PhysFrame}

/-- A store replaces one byte of physical memory. -/
theorem storeByte_phys (h : storeByte vm adr b = .ok vm') : ∃ p, physOf vm adr = some p ∧
    physMem vm' = Function.update (physMem vm) p b ∧
    ∃ f : PhysFrame, f.num = p / pageSize ∧ DataOnly vm vm' {f} := by
  unfold storeByte at h
  unfold physOf
  split_ifs at h ⊢ with hcanonical
  obtain ⟨f, hf, h⟩ := except_bind_eq_ok.mp h
  obtain rfl := Except.ok.inj h
  unfold Vm.frameOf at hf
  cases htrans : vm.translate ⟨adr / pageSize, hcanonical⟩ with
  | none =>
    rw [htrans] at hf
    cases hf
  | some t =>
    rw [htrans] at hf
    obtain rfl : t.frame = f := Except.ok.inj hf
    refine ⟨_, rfl, funext fun a => ?_, t.frame, ?_, .setEntry (Set.mem_singleton t.frame) _ _⟩
    -- frame and offset determine the address, and the other way round
    · rw [Function.update_apply]
      by_cases hlt : a / pageSize < 2 ^ 40
      · rw [physMem, dif_pos hlt, frameByte_setByte, physMem, dif_pos hlt]
        refine if_congr ?_ rfl rfl
        rw [PhysFrame.ext_iff]
        simp only [pageSize]
        omega
      · have hne : a ≠ t.frame.num * pageSize + adr % pageSize := by
          have := t.frame.isLt
          simp only [pageSize] at hlt ⊢
          omega
        rw [if_neg hne, physMem, dif_neg hlt, physMem, dif_neg hlt]
    · simp only [pageSize]
      omega

theorem DataOnly.physOf_eq (h : DataOnly vm vm' S) (hS : Disjoint S vm.tables) (adr : ℕ) :
    physOf vm' adr = physOf vm adr := by
  unfold physOf
  split_ifs with hcanonical
  · rw [h.translate_eq hS]
  · rfl

/-- The bytes that a load of several bytes gives. -/
theorem loadBytes_phys {n : ℕ} {bytes : List (BitVec 8)} (h : loadBytes vm adr n = .ok bytes) :
    bytes.length = n ∧
      ∀ k < n, ∃ p, physOf vm (adr + k) = some p ∧ bytes.getD k 0 = physMem vm p := by
  induction n generalizing adr bytes with
  | zero =>
    cases h
    exact ⟨rfl, fun k hk => absurd hk (Nat.not_lt_zero k)⟩
  | succ n ih =>
    simp only [loadBytes, except_bind_eq_ok] at h
    obtain ⟨b, hb, bs, hbs, h⟩ := h
    cases h
    obtain ⟨hlen, hrest⟩ := ih hbs
    refine ⟨by rw [List.length_cons, hlen], fun k hk => ?_⟩
    cases k with
    | zero =>
      obtain ⟨p, hp, rfl⟩ := loadByte_eq_ok.mp hb
      exact ⟨p, hp, rfl⟩
    | succ k =>
      obtain ⟨p, hp, hbyte⟩ := hrest k (by omega)
      rw [Nat.add_assoc, Nat.add_comm 1 k] at hp
      exact ⟨p, hp, by rwa [List.getD_cons_succ]⟩

/-- The bytes are stored in frames of data, each at a place of its own. -/
structure Distinct (vm : Vm) (adr n : ℕ) : Prop where
  data : ∀ k < n, ∀ p, physOf vm (adr + k) = some p → ∀ f : PhysFrame, f.num = p / pageSize →
    f ∉ vm.tables
  inj : ∀ k < n, ∀ k' < n, physOf vm (adr + k) = physOf vm (adr + k') → k = k'

theorem Distinct.slice {n i m : ℕ} (h : Distinct vm adr n) (hle : i + m ≤ n) :
    Distinct vm (adr + i) m := by
  refine ⟨fun k hk p hp => ?_, fun k hk k' hk' heq => ?_⟩
  · rw [Nat.add_assoc] at hp
    exact h.data (i + k) (by omega) p hp
  · rw [Nat.add_assoc, Nat.add_assoc] at heq
    have := h.inj (i + k) (by omega) (i + k') (by omega) heq
    omega

/-- Stores into such a range write its bytes and leave all other bytes alone. Since no byte goes to
a page table, addresses mean the same after each store; since the places are distinct, no store
undoes another. -/
theorem storeBytes_phys {bytes : List (BitVec 8)} (hdistinct : Distinct vm adr bytes.length)
    (h : storeBytes bytes adr vm = .ok vm') :
    (∀ a, physOf vm' a = physOf vm a) ∧
      (∀ k < bytes.length, ∃ p, physOf vm (adr + k) = some p ∧ physMem vm' p = bytes.getD k 0) ∧
      ∀ p, (∀ k < bytes.length, physOf vm (adr + k) ≠ some p) → physMem vm' p = physMem vm p := by
  induction bytes generalizing adr vm with
  | nil =>
    cases h
    exact ⟨fun _ => rfl, fun k hk => absurd hk (Nat.not_lt_zero k), fun _ _ => rfl⟩
  | cons b bytes ih =>
    rw [storeBytes, except_bind_eq_ok] at h
    obtain ⟨vm₁, hfirst, hrest⟩ := h
    obtain ⟨p₀, hp₀, hmem, f, hf, hdata⟩ := storeByte_phys hfirst
    rw [List.length_cons] at hdistinct
    -- the first byte goes to a frame of data
    have hS : Disjoint {f} vm.tables :=
      Set.disjoint_singleton_left.mpr (hdistinct.data 0 (by omega) p₀ hp₀ f hf)
    have hphys := hdata.physOf_eq hS
    have hstep : ∀ k, physOf vm (adr + (k + 1)) = physOf vm₁ (adr + 1 + k) := fun k => by
      rw [hphys, Nat.add_assoc, Nat.add_comm 1 k]
    -- the rest of the range is as good after the first store as it was before
    have hdistinct₁ : Distinct vm₁ (adr + 1) bytes.length := by
      have htail : Distinct vm (adr + 1) bytes.length := hdistinct.slice (by omega)
      refine ⟨fun k hk p hp g hg => ?_, fun k hk k' hk' heq => ?_⟩
      · rw [hdata.tables_eq hS]
        exact htail.data k hk p ((hphys _).symm.trans hp) g hg
      · rw [hphys, hphys] at heq
        exact htail.inj k hk k' hk' heq
    obtain ⟨hphys', hcontent, hother⟩ := ih hdistinct₁ hrest
    refine ⟨fun a => (hphys' a).trans (hphys a), fun k hk => ?_, fun p hp => ?_⟩
    · cases k with
      | zero =>
        -- the later bytes go elsewhere
        refine ⟨p₀, hp₀, ?_⟩
        rw [hother p₀ fun k hk heq => ?_, hmem, Function.update_self, List.getD_cons_zero]
        rw [← hstep] at heq
        have := hdistinct.inj (k + 1) (by rw [List.length_cons] at *; omega) 0 (by omega)
          (heq.trans hp₀.symm)
        omega
      | succ k =>
        obtain ⟨p, hp, hbyte⟩ := hcontent k (by rw [List.length_cons] at hk; omega)
        exact ⟨p, (hstep k).trans hp, by rwa [List.getD_cons_succ]⟩
    · have hne : p ≠ p₀ := by
        rintro rfl
        exact hp 0 (by rw [List.length_cons]; omega) hp₀
      rw [hother p fun k hk heq => hp (k + 1) (by rw [List.length_cons]; omega)
        ((hstep k).trans heq), hmem, Function.update_of_ne hne]

end PhysOf

end HeliumOS.Mem
