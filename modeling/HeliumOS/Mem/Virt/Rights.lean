import HeliumOS.Mem.Machine

/-!
# Access Rights

The processor grants a right to a page when all entries on the way to it do: those of the P4, P3
and P2 tables and the leaf.  The entries may come from different calls of the mapper, and with
different flags.

- `UserOpen`: above the leaves, the entries of the user half grant everything, so that the leaf
  alone decides.
- `mapPages_leaf`: the leaf that an iteration of the mapper writes.
- `user_kernel_separation` follows the rights along any run of calls.
-/

namespace HeliumOS.Mem.Virt

open HeliumOS.Lib HeliumOS.Lib.AllocProg HeliumOS.Lib.Radix

/-! ## Effective rights -/

namespace Vm

/-- The entries that the processor reads to translate a page, from P4 down to the leaf. -/
def trail (vm : Vm) (page : Page) : Option (List PageTableEntry) :=
  Radix.trail PageTableEntry.frame vm.mem vm.cr3 page.path page.p1Index

/-- The page is mapped, and every entry on the way to it has the flag. -/
def grants (vm : Vm) (page : Page) (right : PageTableFlags) : Bool :=
  match vm.trail page with
  | some entries => entries.all fun entry => entry.flags.contains right
  | none => false

/-- Above the leaves, the entries of the user half are unused, or they lead to a table and grant
everything. -/
def UserOpen (vm : Vm) : Prop :=
  ∀ (page : Page) (p : List (Fin 512)) (f : PhysFrame) (i : Fin 512), page.IsUser →
    p ++ [i] <+: page.path → vm.walk p = some f →
    vm.mem f i = 0 ∨ ((vm.mem f i).frame.isSome ∧ (vm.mem f i).flags.contains .USER_ACCESSIBLE ∧
      (vm.mem f i).flags.contains .WRITABLE)

end Vm

theorem Page.isUser_iff_p4Index (page : Page) : page.IsUser ↔ page.p4Index.val < 256 := by
  have := page.canonical
  simp only [Page.IsUser, Page.p4Index]
  omega

/-- Pages whose paths have a common part are in the same half. -/
theorem isUser_of_prefix {page page' : Page} {p : List (Fin 512)} {i : Fin 512}
    (h : p ++ [i] <+: page.path) (h' : p ++ [i] <+: page'.path) (huser : page.IsUser) :
    page'.IsUser := by
  have hindex : page'.p4Index = page.p4Index := by
    cases p with
    | nil => exact (List.cons_prefix_cons.mp h').1.symm.trans (List.cons_prefix_cons.mp h).1
    | cons k p => exact (List.cons_prefix_cons.mp h').1.symm.trans (List.cons_prefix_cons.mp h).1
  rw [Page.isUser_iff_p4Index] at huser ⊢
  rwa [hindex]

theorem tableFlags_of_isUser {page : Page} (huser : page.IsUser) :
    (tableFlags page).contains .USER_ACCESSIBLE = true ∧
      (tableFlags page).contains .WRITABLE = true := by
  rw [Page.isUser_iff_lt_kvmspace] at huser
  rw [tableFlags, if_pos huser]
  decide

section UserOpen

variable {vm vm' : Vm}

/-- `remove_identity` clears the lower half of the P4 table. -/
theorem Vm.userOpen_of_cleared (h : ∀ i : Fin 512, i.val < 256 → vm.mem vm.cr3 i = 0) :
    vm.UserOpen := by
  intro page p f i huser hpath hwalk
  rw [Page.isUser_iff_p4Index] at huser
  cases p with
  | nil =>
    cases hwalk
    obtain rfl : i = page.p4Index := (List.cons_prefix_cons.mp hpath).1
    exact .inl (h _ huser)
  | cons k p =>
    -- the first entry of the walk is unused
    obtain rfl : k = page.p4Index := (List.cons_prefix_cons.mp hpath).1
    obtain ⟨g, hframe, -⟩ := Option.bind_eq_some_iff.mp hwalk
    rw [h _ huser, PageTableEntry.frame_zero] at hframe
    cases hframe

theorem Vm.UserOpen.of_agree (h : vm.UserOpen) (hcr3 : vm'.cr3 = vm.cr3)
    (hagree : AgreeAbove PageTableEntry.frame vm.mem vm'.mem vm.cr3 3) : vm'.UserOpen := by
  intro page p f i huser hpath hwalk
  have hlen := length_lt_of_prefix_path hpath
  rw [Vm.walk, hcr3, hagree.walk_eq hlen.le] at hwalk
  rw [hagree p f hlen hwalk]
  exact h page p f i huser hpath hwalk

theorem Change.Step.userOpen {s₀ s₁ : Window} {x x' : VmFree} {c : Change}
    (hstep : Change.Step s₀ s₁ x c x') (hx : Working s₀ s₁ x) (h : x.1.UserOpen) :
    x'.1.UserOpen := by
  cases hstep with
  | @repoint vm F s g hs => exact h.of_agree rfl (hx.inv.agree_setWindow s _)
  | @leaf vm F page t frame flags hpage hwalk => exact h.of_agree rfl (hx.inv.agree_setLeaf hwalk _)
  | @link vm F page₀ p₀ f₀ g i₀ hwalk₀ hpath₀ hunused hg =>
    have hsite := hx.linkSite hwalk₀ hpath₀ hunused hg
    intro page p f i huser hpath hwalk
    have hlen := length_lt_of_prefix_path hpath
    rcases hsite.walk_inv hx.inv.tree hlen.le hwalk with hold | ⟨-, rfl⟩
    · have hne := hsite.ne_fresh hlen.le hold
      simp only [Vm.linkTable]
      rw [link_apply_of_ne hne]
      split_ifs with heq
      · -- the new entry, on the way to a page of the same half
        obtain ⟨rfl, rfl⟩ := heq
        obtain rfl := hx.inv.tree p p₀ f hlen.le hsite.depth.le hold hwalk₀
        have huser₀ := isUser_of_prefix hpath hpath₀ huser
        rw [hsite.points, PageTableEntry.flags_ofFrame]
        exact .inr ⟨rfl, tableFlags_of_isUser huser₀⟩
      · exact h page p f i huser hpath hold
    · -- the new table is cleared
      exact .inl (Store.fill_self _ _ _ _)

theorem map_userOpen {M F F' : Set PhysFrame} {page : Page} {phys : PhysFrame} {size : ℕ}
    {flags : PageTableFlags} {r : Except KernelMapError Unit} (hinv : vm.Inv)
    (hfresh : Disjoint F vm.tables) (hopen : vm.UserOpen)
    (h : Returns M (KernelMapper.map vm page phys size flags) F (r, vm') F') : vm'.UserOpen := by
  rcases map_cases h with ⟨-, -, rfl, -⟩ | ⟨-, -, hpage, s₀, s₁, vc, vm₁, vc', hmany, hloop, -, rfl⟩
  · exact hopen
  · have hx := working_of_mapMany (F := F) hinv hfresh hmany
    obtain ⟨cs, hcs, -⟩ := mapPages_changes hx (not_inArea_add_zero hpage) hloop
    obtain ⟨hx₁, hopen₁⟩ := hx.preserves (I := fun x => x.1.UserOpen) hcs
      (hopen.of_agree rfl (hinv.agree_withVCache vc)) fun _ _ _ hy hI hc => hc.userOpen hy hI
    exact hopen₁.of_agree rfl (hx₁.inv.agree_withVCache vc')

/-- In the user half a page that is translated has a complete trail, and all of its entries but
the leaf grant everything. -/
theorem Vm.UserOpen.grants_eq (h : vm.UserOpen) {page : Page} (huser : page.IsUser)
    {t : Translation} (ht : vm.translate page = some t) {right : PageTableFlags}
    (hright : right = .USER_ACCESSIBLE ∨ right = .WRITABLE) :
    vm.grants page right = t.flags.contains right := by
  rcases walk_or_stuck PageTableEntry.frame vm.mem vm.cr3 page.path with
    ⟨g, hwalk⟩ | ⟨q, k, r, f, hpath, hwalk, hnone⟩
  · obtain ⟨ws, htrail, hws⟩ := trail_of_walk (j := page.p1Index) hwalk
    have hleaf : t.flags = (vm.mem g page.p1Index).flags := by
      rw [translate, stop_of_walk hwalk, resolve] at ht
      split_ifs at ht
      exact congrArg Translation.flags (Option.some.inj ht).symm
    have habove : (ws.all fun entry => entry.flags.contains right) = true := by
      rw [List.all_eq_true]
      intro w hmem
      obtain ⟨hlink, q, k, f, hpath, hq, rfl⟩ := hws w hmem
      rcases h page q f k huser hpath hq with hzero | ⟨-, hgrants⟩
      · rw [hzero, PageTableEntry.frame_zero] at hlink
        cases hlink
      · rcases hright with rfl | rfl
        · exact hgrants.1
        · exact hgrants.2
    simp only [grants, trail, htrail, List.all_append, habove, hleaf, Bool.true_and, List.all_cons,
      List.all_nil, Bool.and_true]
  · -- where the walk ends early the entry is unused, and there is no translation
    have hinit : q ++ [k] <+: page.path := ⟨r, by rw [hpath, List.append_assoc]; rfl⟩
    rcases h page q f k huser hinit hwalk with hzero | ⟨hlink, -⟩
    · rw [translate_eq_none hpath hwalk hzero] at ht
      cases ht
    · rw [hnone] at hlink
      cases hlink

end UserOpen

/-! ## Leaves -/

section Leaves

variable {vm vm' : Vm} {M F F' : Set PhysFrame} {page : Page} {phys : PhysFrame} {s₀ s₁ : Window}

/-- The leaf that the last of `n + 1` iterations writes. -/
theorem mapPages_leaf {n i : ℕ} {flags : PageTableFlags} (hx : Working s₀ s₁ (vm, F))
    (hout : ∀ q, page.add i = .ok q → ¬ InArea q)
    (h : Returns M (mapPages page phys s₀.page s₁.page (n + 1) i flags vm) F vm' F') :
    ∃ q f t, page.add (i + n) = .ok q ∧ phys.add (i + n) = .ok f ∧ ¬ InArea q ∧
      vm'.walk q.path = some t ∧
      vm'.mem t q.p1Index = .ofFrame f (flagsFrom (page.num + i) flags n) := by
  induction n generalizing i flags vm F with
  | zero =>
    simp only [mapPages, returns_bind, returns_lift, returns_pure, Prod.exists] at h
    obtain ⟨q, F₁, ⟨hq, rfl⟩, f, F₂, ⟨hf, rfl⟩, flags₁, vm₁, F₃, hone, rfl, rfl⟩ := h
    obtain ⟨rfl, cs, vm₃, t, hrun, -, ht, rfl⟩ := mapPage_changes hx hone
    have hx₃ := hx.run hrun
    have hnum : q.num = page.num + i := Page.add_eq_ok.mp hq
    -- writing the leaf does not disturb the walk to its table
    refine ⟨q, f, t, hq, hf, hout q hq, ?_, ?_⟩
    · exact (((hx₃.inv.agree_setLeaf ht _).walk_eq q.path_length.le).trans ht)
    · rw [← hnum]
      exact Store.set_self _ _ _ _
  | succ n ih =>
    rw [mapPages] at h
    simp only [returns_bind, returns_lift, Prod.exists] at h
    obtain ⟨q, F₁, ⟨hq, rfl⟩, f, F₂, ⟨hf, rfl⟩, flags₁, vm₁, F₃, hone, hrest⟩ := h
    obtain ⟨rfl, cs, vm₃, t, hrun, -, ht, rfl⟩ := mapPage_changes hx hone
    have hleaf : Change.Step s₀ s₁ (vm₃, F₃) (.leaf q f (leafFlags q.num flags)) _ :=
      .leaf (hout q hq) ht
    have hx' := hx.run (hrun.snoc hleaf)
    have hnum : q.num = page.num + i := Page.add_eq_ok.mp hq
    -- the flags of this iteration are passed on to the next one
    obtain ⟨q', f', t', hq', hf', harea, hwalk, hmem⟩ :=
      ih hx' (fun q' hq' => not_inArea_succ hq hq' (hout q hq)) hrest
    rw [show i + (n + 1) = i + 1 + n by omega]
    refine ⟨q', f', t', hq', hf', harea, hwalk, ?_⟩
    rw [hmem, hnum]
    rfl

theorem flagsFrom_eq_leafFlags (num : ℕ) (flags : PageTableFlags) (k : ℕ) :
    ∃ flags', flagsFrom num flags k = leafFlags (num + k) flags' := by
  induction k generalizing num flags with
  | zero => exact ⟨flags, rfl⟩
  | succ k ih =>
    obtain ⟨flags', h⟩ := ih (num + 1) (leafFlags num flags)
    exact ⟨flags', by rw [flagsFrom, h, show num + 1 + k = num + (k + 1) by omega]⟩

/-- Flags that do not overlap with `PRESENT` are not affected by it. -/
theorem contains_or_present {flags right : PageTableFlags}
    (hright : right = .USER_ACCESSIBLE ∨ right = .WRITABLE) :
    (flags ||| .PRESENT).contains right = flags.contains right := by
  have h₁ : PageTableFlags.PRESENT.bits.getLsbD 1 = false := by decide
  have h₂ : PageTableFlags.PRESENT.bits.getLsbD 2 = false := by decide
  rcases hright with rfl | rfl
  · rw [PageTableFlags.contains_user, PageTableFlags.contains_user, PageTableFlags.or_bits,
      BitVec.getLsbD_or, h₂, Bool.or_false]
  · rw [PageTableFlags.contains_writable, PageTableFlags.contains_writable, PageTableFlags.or_bits,
      BitVec.getLsbD_or, h₁, Bool.or_false]

/-- In the user half the loop keeps the rights that were asked for. -/
theorem flagsFrom_of_user {num k : ℕ} (hnum : num + k < kvmspace.num) (flags : PageTableFlags)
    {right : PageTableFlags} (hright : right = .USER_ACCESSIBLE ∨ right = .WRITABLE) :
    (flagsFrom num flags k).contains right = flags.contains right := by
  have hleaf : leafFlags num flags = flags ||| .PRESENT := by rw [leafFlags, if_neg (by omega)]
  induction k generalizing num flags with
  | zero => rw [flagsFrom, hleaf, contains_or_present hright]
  | succ k ih =>
    rw [flagsFrom, ih (by omega) _ (by rw [leafFlags, if_neg (by omega)]), hleaf,
      contains_or_present hright]

/-- In the kernel half a leaf is global and not accessible to the user. -/
theorem leafFlags_of_kernel {num : ℕ} (hnum : kvmspace.num < num) (flags : PageTableFlags) :
    (leafFlags num flags).contains .GLOBAL = true ∧
      (leafFlags num flags).contains .USER_ACCESSIBLE = false := by
  have hglobal : PageTableFlags.GLOBAL.bits.getLsbD 8 = true := by decide
  have huser : PageTableFlags.USER_ACCESSIBLE.bits.getLsbD 8 = false := by decide
  rw [leafFlags, if_pos hnum, contains_or_present (.inl rfl)]
  constructor
  · rw [PageTableFlags.contains_global]
    simp only [PageTableFlags.remove, PageTableFlags.or_bits, BitVec.getLsbD_or, BitVec.getLsbD_and,
      BitVec.getLsbD_not, hglobal, huser]
    simp
  · exact PageTableFlags.remove_contains (i := 2) (by decide)

end Leaves

/-! ## Runs -/

/-- The flags that a call asks for on a page, if it covers the page. -/
def asked : MemCall → Page → Option PageTableFlags
  | .map page _ size flags, q =>
    if page.num ≤ q.num ∧ q.num < page.num + pageCount size then some flags else none
  | _, _ => none

/-- The flags of the last call that covers the page. -/
def lastAsked (calls : List MemCall) (q : Page) : Option PageTableFlags :=
  calls.reverse.findSome? fun call => asked call q

theorem lastAsked_snoc (calls : List MemCall) (call : MemCall) (q : Page) :
    lastAsked (calls ++ [call]) q = (asked call q).or (lastAsked calls q) := by
  rw [lastAsked, List.reverse_append, List.reverse_singleton, List.singleton_append,
    List.findSome?_cons]
  cases asked call q <;> rfl

/-- Every page of the user half translates with the rights that were last asked for. -/
def Granted (calls : List MemCall) (vm : Vm) : Prop :=
  ∀ q flags, q.IsUser → lastAsked calls q = some flags → ∃ t, vm.translate q = some t ∧
    ∀ right, right = PageTableFlags.USER_ACCESSIBLE ∨ right = .WRITABLE →
      t.flags.contains right = flags.contains right

/-- One more call of the mapper. -/
theorem Granted.map {m : Machine} {calls : List MemCall} {page : Page} {phys : PhysFrame}
    {size : ℕ} {flags : PageTableFlags} {r : Except KernelMapError Unit} {vm' : Vm}
    {F' : Set PhysFrame} (h : Granted calls m.vm) (hsane : m.Sane)
    (hret : Returns m.pmm.managed (KernelMapper.map m.vm page phys size flags) m.pmm.free (r, vm')
      F') : Granted (calls ++ [.map page phys size flags]) vm' := by
  intro q want huser hlast
  rw [lastAsked_snoc] at hlast
  have huser' := q.isUser_iff_lt_kvmspace.mp huser
  by_cases hcovered : page.num ≤ q.num ∧ q.num < page.num + pageCount size
  · obtain rfl : flags = want := by simpa [asked, hcovered] using hlast
    rcases map_cases hret with ⟨-, hrefused, -⟩ | ⟨rfl, -⟩
    · -- a call that is refused covers no page of the user half
      exfalso
      rcases hrefused with rfl | harea
      · have hcount : pageCount 0 = 0 := by decide
        omega
      · have := harea.1
        omega
    · obtain ⟨-, hpages⟩ := map_evolves hsane.inv hsane.fresh hret
      obtain ⟨q', f, hq', -, -, htrans⟩ := hpages (q.num - page.num) (by omega)
      rw [Page.add_eq_ok] at hq'
      obtain rfl : q' = q := Page.ext (by omega)
      exact ⟨_, htrans, fun right hright => flagsFrom_of_user (by omega) flags hright⟩
  · have hnone : asked (.map page phys size flags) q = none := if_neg hcovered
    rw [hnone, Option.none_or] at hlast
    -- the call does not cover the page, so that it keeps its translation
    obtain ⟨t, ht, hrights⟩ := h q want huser hlast
    refine ⟨t, ?_, hrights⟩
    rcases map_cases hret with ⟨-, -, rfl, -⟩ | ⟨rfl, -⟩
    · exact ht
    · obtain ⟨hev, -⟩ := map_evolves hsane.inv hsane.fresh hret
      rw [hev.translate q (not_inArea_of_isUser huser), ht]
      rintro ⟨k, -, hk, hq⟩
      rw [Page.add_eq_ok] at hq
      exact hcovered ⟨by omega, by omega⟩

/-- A call that covers no page leaves the rights as they are. -/
theorem Granted.other {calls : List MemCall} {vm : Vm} {call : MemCall} (h : Granted calls vm)
    (hnone : ∀ q, asked call q = none) : Granted (calls ++ [call]) vm := by
  intro q flags huser hlast
  rw [lastAsked_snoc, hnone q, Option.none_or] at hlast
  exact h q flags huser hlast

/-- The invariants of a run that begins with an empty user half. -/
theorem granted_of_run {m₀ m : Machine} {calls : List MemCall} (hsane : m₀.Sane)
    (hopen : m₀.vm.UserOpen) (hrun : Run Machine.Step m₀ calls m) :
    m.Sane ∧ m.vm.UserOpen ∧ Granted calls m.vm := by
  induction hrun with
  | nil => exact ⟨hsane, hopen, fun q flags _ hlast => by cases hlast⟩
  | @snoc m₁ m' calls call _ hstep ih =>
    obtain ⟨hsane₁, hopen₁, hgranted⟩ := ih
    refine ⟨hstep.sane hsane₁, ?_⟩
    cases hstep with
    -- the calls of the allocator change no table
    | palloc => exact ⟨hopen₁, hgranted.other fun _ => rfl⟩
    | refused => exact ⟨hopen₁, hgranted.other fun _ => rfl⟩
    | pfree => exact ⟨hopen₁, hgranted.other fun _ => rfl⟩
    | map hcall =>
      obtain ⟨hret, -⟩ := hsane₁.map_returns hcall
      exact ⟨map_userOpen hsane₁.inv hsane₁.fresh hopen₁ hret, hgranted.map hsane₁ hret⟩

/-- A page of the kernel half outside the virtual cache is behind its first page. -/
theorem kvmspace_lt_of_not_inArea {q : Page} (hkernel : kvmspace.num ≤ q.num) (harea : ¬ InArea q) :
    kvmspace.num < q.num := by
  apply lt_of_le_of_ne hkernel
  intro heq
  apply harea
  refine ⟨hkernel, ?_⟩
  simp only [p1PageCount]
  omega

/-- No page outside the virtual cache shares its leaf with one inside, as the tables form a tree. -/
theorem leaf_ne_of_inArea {vm : Vm} {q a : Page} {t t' : PhysFrame} (hinv : vm.Inv)
    (harea : ¬ InArea q) (hwalk : vm.walk q.path = some t) (ha : InArea a)
    (hwalk' : vm.walk a.path = some t') : (t', a.p1Index) ≠ (t, q.p1Index) := by
  intro heq
  rw [Prod.mk.injEq] at heq
  obtain ⟨rfl, hindex⟩ := heq
  have hpath := hinv.tree _ _ t' a.path_length.le q.path_length.le hwalk' hwalk
  apply harea
  rwa [← Page.eq_of_path_eq hpath hindex]

/-! ## The lower half -/

theorem removeIdentity_eq {vm : Vm} (hinv : vm.Inv) :
    removeIdentity vm = .ok (vm.clearLower vm.cr3) := by
  obtain ⟨s, hs, hshows, -⟩ := hinv.root
  rw [removeIdentity, hs, hinv.wired.frameOf_window hshows, except_ok_bind]

/-- **`remove_identity` keeps the invariant**, and leaves a P4 table without entries in the lower
half.  The tables that are left were tables before. -/
theorem removeIdentity_spec {vm vm' : Vm} (hinv : vm.Inv) (h : removeIdentity vm = .ok vm') :
    vm'.Inv ∧ vm'.tables ⊆ vm.tables ∧ ∀ i : Fin 512, i.val < 256 → vm'.mem vm'.cr3 i = 0 := by
  obtain rfl := Except.ok.inj ((removeIdentity_eq hinv).symm.trans h)
  obtain ⟨s, hs, hshows, hage⟩ := hinv.root
  -- what is cleared is no link
  have hprunes : Prunes PageTableEntry.frame vm.mem (vm.clearLower vm.cr3).mem := by
    intro f i
    simp only [Vm.clearLower]
    split_ifs
    · exact .inr PageTableEntry.frame_zero
    · exact .inl rfl
  have hroot : vm.walk [] = some vm.cr3 := rfl
  have hentry : (vm.clearLower vm.cr3).entry s = vm.entry s :=
    if_neg fun heq => hinv.p1_ne hroot (by decide) s.1 heq.1
  refine ⟨⟨hprunes.isTree hinv.tree, fun i => ?_, s, hs, ⟨?_, ?_⟩, hage⟩, hprunes.tables_subset,
    fun i hi => if_pos ⟨rfl, hi⟩⟩
  · -- the way to the windows starts in the upper half, and never returns to the root
    refine walk_of_words_eq (hinv.wired i) fun q k t hq ht => if_neg ?_
    rintro ⟨rfl, hk⟩
    have hlen := hq.length_le
    simp only [List.length_append, Vm.areaPath, List.length_cons, List.length_nil] at hlen
    obtain rfl : q = [] := hinv.tree q [] vm.cr3 (by omega) (by decide) ht hroot
    obtain rfl : k = 256 := (List.cons_prefix_cons.mp hq).1
    exact absurd hk (by decide)
  · exact hentry ▸ hshows.1
  · exact hentry ▸ hshows.2

/-- **User and kernel mappings stay apart.**  Start after `remove_identity`.  After any calls:

- every page of the user half has the rights that the last call covering it asked for;
- every leaf that the loop of a further call writes, here the one of iteration `n`, is not that
  of a page of the virtual cache, and it is global and not accessible to the user when its page
  belongs to the kernel. -/
theorem user_kernel_separation {vm₀ vm : Vm} {pmm : PhysicalFrameAllocator} {m : Machine}
    {calls : List MemCall} (hinv₀ : vm₀.Inv) (hsound : pmm.Sound)
    (hfresh₀ : Disjoint pmm.free vm₀.tables) (hremoved : removeIdentity vm₀ = .ok vm)
    (hrun : Run Machine.Step ⟨vm, pmm, []⟩ calls m) :
    (∀ q flags, q.num < kvmspace.num → lastAsked calls q = some flags →
      m.vm.grants q .USER_ACCESSIBLE = flags.contains .USER_ACCESSIBLE ∧
      m.vm.grants q .WRITABLE = flags.contains .WRITABLE) ∧
    ∀ page phys n flags (s₀ s₁ : Window) vc vm' pmm', ¬ InArea page →
      m.vm.vcache.mapMany [nullFrame, nullFrame] [] = .ok (some [s₀.page, s₁.page], vc) →
      (mapPages page phys s₀.page s₁.page (n + 1) 0 flags (m.vm.withVCache vc)).run
        PhysicalFrameAllocator.pool m.pmm = .ok (vm', pmm') →
      ∃ q f t written, page.add n = .ok q ∧ vm'.walk q.path = some t ∧
        vm'.mem t q.p1Index = .ofFrame f written ∧
        (kvmspace.num ≤ q.num → written.contains .GLOBAL = true ∧
          written.contains .USER_ACCESSIBLE = false) ∧
        ¬ InArea q ∧ ∀ a t', InArea a → vm'.walk a.path = some t' →
          (t', a.p1Index) ≠ (t, q.p1Index) := by
  obtain ⟨hinv, htables, hcleared⟩ := removeIdentity_spec hinv₀ hremoved
  have hfresh := hfresh₀.mono_right htables
  obtain ⟨h, hopen, hgranted⟩ :=
    granted_of_run (.start hinv hsound hfresh) (Vm.userOpen_of_cleared hcleared) hrun
  constructor
  · intro q flags huser hlast
    rw [← Page.isUser_iff_lt_kvmspace] at huser
    obtain ⟨t, ht, hrights⟩ := hgranted q flags huser hlast
    rw [hopen.grants_eq huser ht (.inl rfl), hopen.grants_eq huser ht (.inr rfl)]
    exact ⟨hrights _ (.inl rfl), hrights _ (.inr rfl)⟩
  · intro page phys n flags s₀ s₁ vc vm' pmm' hpage hmany hloop
    obtain ⟨hret, -, -⟩ := run_returns PhysicalFrameAllocator.freeSet h.sound hloop
    have hx := working_of_mapMany (F := m.pmm.free) h.inv h.fresh hmany
    obtain ⟨cs, hcs, -⟩ := mapPages_changes hx (not_inArea_add_zero hpage) hret
    have hx' := hx.run hcs
    obtain ⟨q, f, t, hq, -, harea, hwalk, hmem⟩ := mapPages_leaf hx (not_inArea_add_zero hpage) hret
    rw [Nat.zero_add] at hq
    refine ⟨q, f, t, _, hq, hwalk, hmem, fun hkernel => ?_, harea,
      fun a t' ha hwalk' => leaf_ne_of_inArea hx'.inv harea hwalk ha hwalk'⟩
    -- the first page of the kernel half belongs to the virtual cache
    obtain ⟨flags', hflags⟩ := flagsFrom_eq_leafFlags (page.num + 0) flags n
    rw [Page.add_eq_ok] at hq
    rw [hflags, Nat.add_zero, ← hq]
    exact leafFlags_of_kernel (kvmspace_lt_of_not_inArea hkernel harea) flags'

/-- The frame of a table in the lower half. -/
def lowerFrame : PhysFrame := ⟨8, by decide⟩

/-- The first entry of a table. -/
def firstIndex : Fin 512 := ⟨0, by decide⟩

/-- The fresh address space before `remove_identity`, with a table in the lower half. -/
def lowerVm : Vm :=
  freshVm.linkTable freshVm.cr3 firstIndex (.ofFrame lowerFrame (.WRITABLE ||| .PRESENT)) lowerFrame

theorem lowerVm_spec : lowerVm.Inv ∧ Disjoint freshPmm.free lowerVm.tables := by
  have hnot : lowerFrame ∉ freshVm.tables := fun hmem => absurd (freshVm_tables hmem) (by decide)
  have hunused : freshVm.mem freshVm.cr3 firstIndex = 0 := by decide
  have hsite : LinkSite PageTableEntry.frame freshVm.mem freshVm.cr3 3 [] freshVm.cr3 firstIndex
      (.ofFrame lowerFrame (.WRITABLE ||| .PRESENT)) lowerFrame 0 :=
    ⟨by decide, rfl, by rw [hunused, PageTableEntry.frame_zero], hnot,
      PageTableEntry.frame_ofFrame _ (by decide) (by decide), PageTableEntry.frame_zero⟩
  have htables : lowerVm.tables = insert lowerFrame freshVm.tables :=
    hsite.tables_eq freshVm_inv.tree
  refine ⟨(evolves_linkTable (F := {lowerFrame}) freshVm_inv hsite hunused rfl).1.inv, ?_⟩
  rw [htables, Set.disjoint_insert_right]
  exact ⟨fun hmem => absurd (num_of_mem_freshPmm_free hmem) (by decide), able_fresh.fresh⟩

theorem removeIdentity_lowerVm : removeIdentity lowerVm = .ok freshVm := by
  have hroot : lowerVm.cr3 = freshVm.cr3 := rfl
  rw [removeIdentity_eq lowerVm_spec.1, Except.ok.injEq, hroot]
  have hmem : (lowerVm.clearLower freshVm.cr3).mem = freshVm.mem := by
    funext f i
    simp only [Vm.clearLower]
    split_ifs with h
    · obtain ⟨rfl, hi⟩ := h
      simp [freshVm, show ¬ i.val = 256 by omega]
    · by_cases hf : f = lowerFrame
      · subst hf
        simp [lowerVm, Vm.linkTable, link, freshVm, lowerFrame]
      · simp only [lowerVm, Vm.linkTable]
        rw [link_apply_of_ne hf, if_neg]
        rintro ⟨rfl, rfl⟩
        exact h ⟨rfl, by decide⟩
  have hsame : lowerVm.clearLower freshVm.cr3 =
      { freshVm with mem := (lowerVm.clearLower freshVm.cr3).mem } := rfl
  rw [hsame, hmem]

/-- With a table in the lower half at first: two pages that a call makes writable, and not
accessible to the user. -/
theorem user_kernel_separation_fresh :
    lowerVm.mem lowerVm.cr3 0 ≠ 0 ∧ removeIdentity lowerVm = .ok freshVm ∧
      ∃ m, Run Machine.Step ⟨freshVm, freshPmm, []⟩ [.map lowPage lowFrame 8000 .WRITABLE] m ∧
        m.vm.grants lowPage .USER_ACCESSIBLE = false ∧ m.vm.grants lowPage .WRITABLE = true := by
  obtain ⟨m, hrun⟩ := exists_fresh_call .WRITABLE (by decide)
  obtain ⟨hgrants, -⟩ := user_kernel_separation lowerVm_spec.1 able_fresh.sound
    lowerVm_spec.2 removeIdentity_lowerVm hrun
  have hgrants := hgrants lowPage .WRITABLE (by decide) (by decide)
  exact ⟨by decide, removeIdentity_lowerVm, m, hrun, hgrants.1.trans (by decide),
    hgrants.2.trans (by decide)⟩

end HeliumOS.Mem.Virt
