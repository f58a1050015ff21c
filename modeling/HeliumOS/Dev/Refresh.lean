import HeliumOS.Dev.Pixels
import HeliumOS.Lib.Run

/-!
# The Dirty Interval

With a double buffer, `set_pixel` keeps the lowest offset and the highest end of the pixels that
were drawn, and `refresh` copies what is between them to the screen.

- `track_covers_iff`: a pixel is inside the bounds after it was drawn, unless it starts at the
  highest end or less than a word in front of it.
- `refresh_copies`: what is inside the bounds is the same in both buffers afterwards.
- `dirty_covers_iff`: so the bounds have all pixels after every call, exactly when no pixel starts
  right behind the last one of those before it.
- `adjacent_not_covered`: two pixels next to each other.
-/

namespace HeliumOS.Dev

open HeliumOS.Lib HeliumOS.Mem HeliumOS.Mem.Virt

/-! ## Definitions -/

namespace Framebuffer

/-- `Framebuffer::init_dfb`, for the memory that the `Vec` gets. -/
def initDfb (fb : Framebuffer) (buffer : ℕ) (vm : Vm) : Except Panic (Framebuffer × Vm) := do
  let bufferLen ← checkedMul 64 Panic.pixelOverflow fb.scanline fb.height
  let vm ← storeBytes (List.replicate bufferLen 0) buffer vm
  .ok ({ fb with doubleBuffer := some buffer, lowestOffset := none, highestOffset := none }, vm)

/-- `Framebuffer::refresh`.  Bounds that are not set count as 0. -/
def refresh (fb : Framebuffer) (vm : Vm) : Except Panic (Framebuffer × Vm) := do
  let lowest := fb.lowestOffset.getD 0
  let highest := fb.highestOffset.getD 0
  let copyLen ← checkedSub Panic.pixelOverflow highest lowest
  let fb' := { fb with lowestOffset := none, highestOffset := none }
  match fb.doubleBuffer with
  | none => .ok (fb', vm)
  | some buffer => do
    let src := (buffer + lowest) % 2 ^ 64
    let dst := (fb.ptr + lowest) % 2 ^ 64
    -- `copy_from_nonoverlapping`
    ensure Panic.pixelPointer ((copyLen = 0 ∨ src ≠ 0 ∧ dst ≠ 0) ∧
      (src + copyLen ≤ dst ∨ dst + copyLen ≤ src))
    let bytes ← loadBytes vm src copyLen
    let vm ← storeBytes bytes dst vm
    .ok (fb', vm)

/-- The bounds have the word at an offset between them. -/
def HasWord (fb : Framebuffer) (o : ℕ) : Prop :=
  ∃ lowest highest, fb.lowestOffset = some lowest ∧ fb.highestOffset = some highest ∧
    lowest ≤ o ∧ o + 4 ≤ highest

end Framebuffer

/-- The arguments of a call of `set_pixel`. -/
structure Drawing where
  x : ℕ
  y : ℕ
  pixel : PixelColor

/-- A call of `set_pixel`. -/
def Draw (s : Framebuffer × Vm) (d : Drawing) (s' : Framebuffer × Vm) : Prop :=
  s.1.setPixel d.x d.y d.pixel s.2 = .ok s'

/-- The state after `init_dfb` or `refresh`. -/
def Renewed (s : Framebuffer × Vm) : Prop :=
  ∃ fb vm, (∃ buffer, Framebuffer.initDfb fb buffer vm = .ok s) ∨ Framebuffer.refresh fb vm = .ok s

/-- The offsets of pixels in the order in which they are drawn: each one is not behind all earlier
ones, or more than a word behind all of them. -/
def Spaced (offsets : List ℕ) : Prop :=
  ∀ before o after, offsets = before ++ o :: after →
    before = [] ∨ (∀ p ∈ before, p + 4 < o) ∨ ∃ p ∈ before, o ≤ p

/-- The bytes of the screen up to an offset are data with places of their own, and those of the
double buffer are elsewhere. -/
structure Separate (vm : Vm) (ptr buffer n : ℕ) : Prop where
  distinct : Distinct vm ptr n
  apart : ∀ k < n, ∀ k' < n, ∀ p, physOf vm (ptr + k) = some p → physOf vm (buffer + k') ≠ some p
  screen : ptr + n ≤ 2 ^ 64
  double : buffer + n ≤ 2 ^ 64

/-! ## The bounds -/

section Bounds

variable {fb : Framebuffer} {o : ℕ} {offsets : List ℕ}

theorem Renewed.clear {s : Framebuffer × Vm} (h : Renewed s) :
    s.1.lowestOffset = none ∧ s.1.highestOffset = none := by
  obtain ⟨fb, vm, ⟨buffer, h⟩ | h⟩ := h
  · simp only [Framebuffer.initDfb, except_bind_eq_ok] at h
    obtain ⟨_, -, vm', -, h⟩ := h
    cases h
    exact ⟨rfl, rfl⟩
  · simp only [Framebuffer.refresh, except_bind_eq_ok] at h
    obtain ⟨_, -, h⟩ := h
    split at h
    · cases h
      exact ⟨rfl, rfl⟩
    · simp only [except_bind_eq_ok] at h
      obtain ⟨_, -, _, -, _, -, h⟩ := h
      cases h
      exact ⟨rfl, rfl⟩

theorem spaced_nil : Spaced [] := fun before o after heq => by simp at heq

theorem spaced_snoc : Spaced (offsets ++ [o]) ↔ Spaced offsets ∧
    (offsets = [] ∨ (∀ p ∈ offsets, p + 4 < o) ∨ ∃ p ∈ offsets, o ≤ p) := by
  constructor
  · intro h
    refine ⟨fun before p after heq => ?_, h offsets o [] rfl⟩
    exact h before p (after ++ [o]) (by rw [heq, List.append_assoc, List.cons_append])
  · rintro ⟨h, hlast⟩ before p after heq
    -- the pixel `p` is the last one, or one of those before it
    rcases List.eq_nil_or_concat after with rfl | ⟨after, q, rfl⟩
    · obtain ⟨rfl, hp⟩ := List.append_inj' heq rfl
      cases hp
      exact hlast
    · rw [List.concat_eq_append, ← List.cons_append, ← List.append_assoc] at heq
      obtain ⟨rfl, -⟩ := List.append_inj' heq rfl
      exact h before p after rfl

/-- What holds of the bounds after any calls: they are those of two of the pixels, and the lower one
is right. -/
structure Tracks (fb : Framebuffer) (offsets : List ℕ) : Prop where
  clear : offsets = [] → fb.lowestOffset = none ∧ fb.highestOffset = none
  bounds : offsets ≠ [] → ∃ lowest p, fb.lowestOffset = some lowest ∧
    fb.highestOffset = some (p + 4) ∧ p ∈ offsets ∧ ∀ q ∈ offsets, lowest ≤ q

/-- One call. -/
theorem Tracks.track (h : Tracks fb offsets) (o : ℕ) :
    Tracks (fb.track o (o + 4)) (offsets ++ [o]) where
  clear := fun hnil => absurd hnil (by simp)
  bounds := fun _ => by
    by_cases hoffsets : offsets = []
    · obtain ⟨hlow, hhigh⟩ := h.clear hoffsets
      refine ⟨o, o, ?_, ?_, by simp, by simp [hoffsets]⟩ <;> simp [Framebuffer.track, hlow, hhigh]
    · obtain ⟨lowest, p, hlow, hhigh, hp, hle⟩ := h.bounds hoffsets
      -- the end of `p` is compared with the start of the new pixel
      refine ⟨if o < lowest then o else lowest, if p + 4 < o then o else p, ?_, ?_, ?_,
        fun q hq => ?_⟩
      · simp [Framebuffer.track, hlow]
      · simp only [Framebuffer.track, hhigh, Option.getD_some, Option.some.injEq]
        split_ifs <;> rfl
      · split_ifs
        · simp
        · exact List.mem_append_left _ hp
      · rcases List.mem_append.mp hq with hq | hq
        · have := hle q hq
          split_ifs <;> omega
        · obtain rfl := List.mem_singleton.mp hq
          split_ifs <;> omega

/-- The pixel of the call itself, and those before it. The upper bound is raised only for an offset
that is larger than it, so that a pixel which begins behind all earlier ones has to begin more than
a word behind them. -/
theorem track_covers_iff (h : Tracks fb offsets) (hbefore : ∀ p ∈ offsets, fb.HasWord p) :
    (∀ p ∈ offsets ++ [o], (fb.track o (o + 4)).HasWord p) ↔
      offsets = [] ∨ (∀ p ∈ offsets, p + 4 < o) ∨ ∃ p ∈ offsets, o ≤ p := by
  by_cases hoffsets : offsets = []
  · obtain ⟨hlow, hhigh⟩ := h.clear hoffsets
    refine iff_of_true (fun p hp => ?_) (.inl hoffsets)
    obtain rfl : p = o := by simpa [hoffsets] using hp
    refine ⟨p, p + 4, ?_, ?_, le_rfl, le_rfl⟩ <;> simp [Framebuffer.track, hlow, hhigh]
  · obtain ⟨lowest, top, hlow, hhigh, htop, hle⟩ := h.bounds hoffsets
    -- all pixels are between the bounds, so the upper one is that of the last pixel
    have hends : ∀ p ∈ offsets, p ≤ top := fun p hp => by
      obtain ⟨_, highest, -, hhigh', -, hend⟩ := hbefore p hp
      rw [hhigh] at hhigh'
      cases hhigh'
      omega
    have hlow' : (fb.track o (o + 4)).lowestOffset = some (if o < lowest then o else lowest) := by
      simp [Framebuffer.track, hlow]
    have hhigh' : (fb.track o (o + 4)).highestOffset =
        some (if top + 4 < o then o + 4 else top + 4) := by
      simp [Framebuffer.track, hhigh]
    constructor
    · intro hall
      obtain ⟨_, highest, -, heq, -, hend⟩ := hall o (by simp)
      rw [hhigh'] at heq
      cases heq
      split_ifs at hend with hlt
      · -- the bound was raised: the pixel starts behind the end of all others
        exact .inr (.inl fun p hp => lt_of_le_of_lt (Nat.add_le_add_right (hends p hp) 4) hlt)
      · -- it was not: the pixel ends in front of it
        exact .inr (.inr ⟨top, htop, by omega⟩)
    · intro hspaced p hp
      refine ⟨_, _, hlow', hhigh', ?_, ?_⟩
      · rcases List.mem_append.mp hp with hp | hp
        · have := hle p hp
          split_ifs <;> omega
        · obtain rfl := List.mem_singleton.mp hp
          split_ifs <;> omega
      · rcases List.mem_append.mp hp with hp | hp
        · have := hends p hp
          split_ifs <;> omega
        · obtain rfl := List.mem_singleton.mp hp
          rcases hspaced with hnil | hfar | ⟨q, hq, hle'⟩
          · exact absurd hnil hoffsets
          · rw [if_pos (hfar top htop)]
          · have := hends q hq
            rw [if_neg (by omega)]
            omega

end Bounds

/-! ## Copying -/

section Copies

variable {vm vm' : Vm} {fb fb' : Framebuffer} {buffer o k : ℕ}

/-- After `refresh` a word between the bounds is the same in both buffers. -/
theorem refresh_copies (hdouble : fb.doubleBuffer = some buffer)
    (hseparate : Separate vm fb.ptr buffer (fb.highestOffset.getD 0))
    (h : fb.refresh vm = .ok (fb', vm')) (hword : fb.HasWord o) (hk : k < 4) :
    ∃ b, loadByte vm' (fb.ptr + (o + k)) = .ok b ∧ loadByte vm' (buffer + (o + k)) = .ok b := by
  obtain ⟨lowest, highest, hlow, hhigh, hle, hend⟩ := hword
  rw [hhigh, Option.getD_some] at hseparate
  have hscreen := hseparate.screen
  have hbuffer := hseparate.double
  have hcopy : checkedSub Panic.pixelOverflow highest lowest = .ok (highest - lowest) :=
    if_pos (by omega)
  have hsrc : (buffer + lowest) % 2 ^ 64 = buffer + lowest := Nat.mod_eq_of_lt (by omega)
  have hdst : (fb.ptr + lowest) % 2 ^ 64 = fb.ptr + lowest := Nat.mod_eq_of_lt (by omega)
  rw [Framebuffer.refresh, hlow, hhigh, hdouble] at h
  simp only [Option.getD_some, hcopy, except_ok_bind, hsrc, hdst, except_bind_eq_ok,
    Except.ok.injEq, Prod.mk.injEq] at h
  obtain ⟨-, -, bytes, hload, vm₁, hstore, -, rfl⟩ := h
  obtain ⟨hlen, hread⟩ := loadBytes_phys hload
  have hdistinct : Distinct vm (fb.ptr + lowest) bytes.length :=
    hseparate.distinct.slice (by omega)
  obtain ⟨hphys, hcontent, hother⟩ := storeBytes_phys hdistinct hstore
  -- the byte between the bounds, in both buffers
  have hsum : ∀ a, a + lowest + (o + k - lowest) = a + (o + k) := fun a => by omega
  obtain ⟨p, hp, hbyte⟩ := hcontent (o + k - lowest) (by omega)
  obtain ⟨p', hp', hbyte'⟩ := hread (o + k - lowest) (by omega)
  rw [hsum] at hp hp'
  have hkept : physMem vm₁ p' = physMem vm p' := by
    refine hother p' fun j hj heq => ?_
    rw [Nat.add_assoc] at heq
    exact hseparate.apart (lowest + j) (by omega) (o + k) (by omega) p' heq hp'
  refine ⟨physMem vm₁ p, loadByte_eq_ok.mpr ⟨p, (hphys _).trans hp, rfl⟩,
    loadByte_eq_ok.mpr ⟨p', (hphys _).trans hp', ?_⟩⟩
  rw [hbyte, hbyte', hkept]

end Copies

/-! ## Sequences of pixels -/

section Sequences

variable {fb₀ fb fb' : Framebuffer} {vm₀ vm vm' : Vm} {d : Drawing} {drawings : List Drawing}

/-- The offset of a drawing. -/
def Drawing.offset (fb : Framebuffer) (d : Drawing) : ℕ := fb.offset d.x d.y

/-- One call, with the offset from the geometry at the start. -/
theorem draw_track (hscanline : fb.scanline = fb₀.scanline) (h : Draw (fb, vm) d (fb', vm')) :
    fb' = fb.track (d.offset fb₀) (d.offset fb₀ + 4) := by
  obtain ⟨-, _, -, -, htrack⟩ := setPixel_eq_ok.mp h
  rw [htrack, Drawing.offset, Framebuffer.offset, ← hscanline]

/-- The bounds along a sequence of calls. -/
theorem tracks_of_run (hrenewed : Renewed (fb₀, vm₀))
    (hrun : Run Draw (fb₀, vm₀) drawings (fb, vm)) :
    fb.scanline = fb₀.scanline ∧ Tracks fb (drawings.map (Drawing.offset fb₀)) := by
  generalize hs : (fb, vm) = s at hrun
  induction hrun generalizing fb vm with
  | nil =>
    cases hs
    exact ⟨rfl, fun _ => hrenewed.clear, fun hne => absurd rfl hne⟩
  | @snoc s₁ _ drawings d _ hlast ih =>
    subst hs
    obtain ⟨hscanline, htracks⟩ := ih rfl
    rw [draw_track hscanline hlast, List.map_append]
    exact ⟨hscanline, htracks.track _⟩

/-- All pixels are between the bounds after every call. -/
def AlwaysCovers (s : Framebuffer × Vm) (drawings : List Drawing) : Prop :=
  ∀ before after s', drawings = before ++ after → Run Draw s before s' →
    ∀ d ∈ before, s'.1.HasWord (d.offset s.1)

theorem covers_of_spaced (hrenewed : Renewed (fb₀, vm₀))
    (hrun : Run Draw (fb₀, vm₀) drawings (fb, vm))
    (hspaced : Spaced (drawings.map (Drawing.offset fb₀))) :
    ∀ o ∈ drawings.map (Drawing.offset fb₀), fb.HasWord o := by
  -- along the calls, with `Tracks` for the bounds in front of the last one
  generalize hs : (fb, vm) = s at hrun
  induction hrun generalizing fb vm with
  | nil => simp
  | @snoc s₁ _ drawings d hbefore hlast ih =>
    subst hs
    rw [List.map_append, List.map_singleton] at hspaced ⊢
    obtain ⟨hspaced, hlast'⟩ := spaced_snoc.mp hspaced
    obtain ⟨hscanline, htracks⟩ := tracks_of_run hrenewed hbefore
    rw [draw_track hscanline hlast]
    exact (track_covers_iff htracks (ih hspaced rfl)).mpr hlast'

theorem spaced_of_covers (hrenewed : Renewed (fb₀, vm₀)) {s : Framebuffer × Vm}
    (hrun : Run Draw (fb₀, vm₀) drawings s) (hcovers : AlwaysCovers (fb₀, vm₀) drawings) :
    Spaced (drawings.map (Drawing.offset fb₀)) := by
  induction hrun with
  | nil => exact spaced_nil
  | @snoc s₁ s₂ drawings d hbefore hlast ih =>
    -- the hypothesis in front of the last call and after it
    have hall : ∀ o ∈ drawings.map (Drawing.offset fb₀), s₁.1.HasWord o :=
      List.forall_mem_map.mpr (hcovers drawings [d] s₁ rfl hbefore)
    have hall' := List.forall_mem_map.mpr (hcovers (drawings ++ [d]) [] s₂
      (List.append_nil _).symm (hbefore.snoc hlast))
    obtain ⟨hscanline, htracks⟩ := tracks_of_run hrenewed hbefore
    rw [List.map_append, List.map_singleton] at hall' ⊢
    rw [draw_track hscanline hlast] at hall'
    refine spaced_snoc.mpr
      ⟨ih fun before after s' heq hrun => ?_, (track_covers_iff htracks hall).mp hall'⟩
    exact hcovers before (after ++ [d]) s' (by rw [heq, List.append_assoc]) hrun

theorem Spaced.left {xs ys : List ℕ} (h : Spaced (xs ++ ys)) : Spaced xs :=
  fun before o after heq =>
  h before o (after ++ ys) (by rw [heq, List.append_assoc, List.cons_append])

/-- **The dirty interval.**  After `init_dfb` or `refresh`, the bounds have all pixels drawn since
then after every call, exactly when each pixel is not behind all earlier ones or more than a word
behind them.  Then the copy of `refresh` makes the words of all these pixels equal in both
buffers. -/
theorem dirty_covers_iff (hrenewed : Renewed (fb₀, vm₀))
    (hrun : Run Draw (fb₀, vm₀) drawings (fb, vm)) :
    (AlwaysCovers (fb₀, vm₀) drawings ↔ Spaced (drawings.map (Drawing.offset fb₀))) ∧
    (Spaced (drawings.map (Drawing.offset fb₀)) → ∀ buffer fb' vm', fb.doubleBuffer = some buffer →
      Separate vm fb.ptr buffer (fb.highestOffset.getD 0) → fb.refresh vm = .ok (fb', vm') →
      ∀ d ∈ drawings, ∀ k < 4, ∃ b, loadByte vm' (fb.ptr + (d.offset fb₀ + k)) = .ok b ∧
        loadByte vm' (buffer + (d.offset fb₀ + k)) = .ok b) := by
  refine ⟨⟨spaced_of_covers hrenewed hrun, ?_⟩, ?_⟩
  · rintro hspaced before after ⟨fb₁, vm₁⟩ rfl hrun₁
    rw [List.map_append] at hspaced
    exact List.forall_mem_map.mp (covers_of_spaced hrenewed hrun₁ hspaced.left)
  · intro hspaced buffer fb' vm' hdouble hseparate hrefresh d hd k hk
    have hword := List.forall_mem_map.mp (covers_of_spaced hrenewed hrun hspaced) d hd
    exact refresh_copies hdouble hseparate hrefresh hword hk

end Sequences

/-! ## Two pixels with a double buffer -/

/-- The screen of two pixels, whose double buffer is in the other half of its page. -/
def twoBuffers : Framebuffer :=
  { twoPixels with doubleBuffer := some (lowPage.startAddress + 2048) }

section Shown

variable {vm vm' : Vm} {k n : ℕ}

theorem Shown.storeBytes (h : Shown vm) (bytes : List (BitVec 8))
    (hlen : k + bytes.length ≤ pageSize) :
    ∃ vm', storeBytes bytes (lowPage.startAddress + k) vm = .ok vm' ∧ Shown vm' := by
  have hend : lowPage.startAddress + k + bytes.length ≤
      lowPage.startAddress + [lowFrame].length * pageSize := by
    rw [List.length_singleton]
    omega
  obtain ⟨vm', hstore, hdata⟩ := storeBytes_backs h.backs h.data (Nat.le_add_right _ k) hend
  exact ⟨vm', hstore, h.of_dataOnly hdata⟩

theorem Shown.separate (h : Shown vm) (hn : n ≤ 2048) :
    Separate vm lowPage.startAddress (lowPage.startAddress + 2048) n where
  distinct := by
    refine ⟨fun k hk p hp f hf => ?_, fun k hk k' hk' heq => ?_⟩
    · rw [h.covers.physOf (by simp only [pageSize]; omega), Option.some.injEq] at hp
      obtain rfl : lowFrame = f := PhysFrame.ext (by simp only [pageSize] at hp hf; omega)
      exact Set.disjoint_left.mp h.data (List.mem_singleton_self _)
    · rw [h.covers.physOf (by simp only [pageSize]; omega),
        h.covers.physOf (by simp only [pageSize]; omega), Option.some.injEq] at heq
      omega
  apart k hk k' hk' p hp := by
    rw [h.covers.physOf (by simp only [pageSize]; omega), Option.some.injEq] at hp
    rw [Nat.add_assoc, h.covers.physOf (by simp only [pageSize]; omega), ne_eq, Option.some.injEq]
    omega
  screen := by
    simp only [Page.startAddress, lowPage, pageSize]
    omega
  double := by
    simp only [Page.startAddress, lowPage, pageSize]
    omega

/-- A word is stored in the frame of its page. -/
theorem storeWord_dataOnly {adr : ℕ} {v : BitVec 32} {q : Page} {f : PhysFrame}
    {flags : PageTableFlags} (hq : q.num = adr / pageSize)
    (htrans : vm.translate q = some ⟨f, flags⟩)
    (h : storeWord vm adr v = .ok vm') : DataOnly vm vm' {g | g ∈ [f]} := by
  have hpage : (⟨adr / pageSize, hq ▸ q.canonical⟩ : Page) = q := Page.ext hq.symm
  rw [storeWord, dif_pos (hq ▸ q.canonical), hpage, Vm.frameOf, htrans] at h
  obtain rfl := Except.ok.inj h
  exact .setEntry (List.mem_singleton_self f) _ _

theorem Shown.draw (h : Shown vm) {x : ℕ} (hx : x < 2) (pixel : PixelColor)
    (lowest highest : Option ℕ) :
    let fb := { twoBuffers with lowestOffset := lowest, highestOffset := highest }
    ∃ vm', Draw (fb, vm) ⟨x, 0, pixel⟩ (fb.track (x * 4) (x * 4 + 4), vm') ∧ Shown vm' := by
  intro fb
  have haddress : fb.address (x * 4) = lowPage.startAddress + (2048 + 16 * x) := by
    show (lowPage.startAddress + 2048 + 4 * (x * 4)) % 2 ^ 64 = _
    simp only [Page.startAddress, lowPage, pageSize]
    omega
  have hoffset : 0 * fb.scanline + x * 4 = x * 4 := by omega
  -- nothing overflows, and the word lies in the page that is mapped
  have hdraws : fb.Draws vm x 0 := by
    refine ⟨hx, Nat.one_pos, ?_, show 8 * 1 < 2 ^ 64 by decide, ?_, .inl rfl, ?_, ?_, ?_⟩ <;>
      rw [hoffset]
    · show x * 4 < 8
      omega
    · omega
    · rw [haddress]
      simp only [Page.startAddress, lowPage, pageSize]
      omega
    · rw [haddress]
      simp only [Page.startAddress, lowPage, pageSize]
      omega
    · rw [haddress]
      exact ⟨_, h.covers.loadByte (by simp only [pageSize]; omega)⟩
  obtain ⟨⟨fb', vm'⟩, hset : fb.setPixel x 0 pixel vm = .ok _⟩ := setPixel_returns_iff.mpr hdraws
  obtain ⟨-, w, -, hstore, rfl⟩ := setPixel_eq_ok.mp hset
  rw [hoffset] at hset hstore
  obtain ⟨flags, htrans⟩ := h.translate
  refine ⟨vm', hset, h.of_dataOnly (storeWord_dataOnly ?_ htrans hstore)⟩
  rw [haddress]
  simp only [Page.startAddress, lowPage, pageSize]
  omega

end Shown

/-- Two pixels that are drawn after `init_dfb`. -/
theorem exists_two_drawn (x x' : ℕ) (hx : x < 2) (hx' : x' < 2) (pixel : PixelColor) : ∃ vm₀ vm,
    Renewed (twoBuffers, vm₀) ∧ Shown vm ∧
    Run Draw (twoBuffers, vm₀) [⟨x, 0, pixel⟩, ⟨x', 0, pixel⟩]
      ((twoBuffers.track (x * 4) (x * 4 + 4)).track (x' * 4) (x' * 4 + 4), vm) := by
  obtain ⟨vm, hvm⟩ := exists_shown
  obtain ⟨vm₀, hstore, hvm₀⟩ := hvm.storeBytes (k := 2048) (List.replicate 8 0) (by decide)
  have hinit : twoPixels.initDfb (lowPage.startAddress + 2048) vm = .ok (twoBuffers, vm₀) := by
    have hlen : checkedMul 64 Panic.pixelOverflow twoPixels.scanline twoPixels.height = .ok 8 :=
      by decide
    rw [Framebuffer.initDfb, hlen, except_ok_bind, hstore]
    rfl
  obtain ⟨vm₁, hdraw, hvm₁⟩ := hvm₀.draw hx pixel none none
  obtain ⟨vm₂, hdraw', hvm₂⟩ := hvm₁.draw hx' pixel _ _
  exact ⟨vm₀, vm₂, ⟨_, _, .inl ⟨_, hinit⟩⟩, hvm₂, .snoc (.snoc (.nil _) hdraw) hdraw'⟩

theorem dirty_covers_backwards : ∃ vm₀ fb vm fb' vm', Renewed (twoBuffers, vm₀) ∧
    Run Draw (twoBuffers, vm₀) [⟨1, 0, .ofRgb 255 0 0⟩, ⟨0, 0, .ofRgb 255 0 0⟩] (fb, vm) ∧
    AlwaysCovers (twoBuffers, vm₀) [⟨1, 0, .ofRgb 255 0 0⟩, ⟨0, 0, .ofRgb 255 0 0⟩] ∧
    fb.refresh vm = .ok (fb', vm') ∧
    ∀ k < 4, ∃ b, loadByte vm' (lowPage.startAddress + (4 + k)) = .ok b ∧
      loadByte vm' (lowPage.startAddress + 2048 + (4 + k)) = .ok b := by
  obtain ⟨vm₀, vm, hrenewed, hvm, hrun⟩ :=
    exists_two_drawn 1 0 (by decide) (by decide) (.ofRgb 255 0 0)
  have hload := hvm.covers.loadBytes (i := 2048) (k := 8) (by decide)
  obtain ⟨vm', hstore, -⟩ := hvm.storeBytes (k := 0)
    ((physMem vm).slice (lowFrame.num * pageSize + 2048) 8)
    (by rw [ByteMemory.length_slice]; decide)
  -- the dirty range is that of both pixels, and `refresh` copies it
  have hrefresh : ((twoBuffers.track (1 * 4) (1 * 4 + 4)).track (0 * 4) (0 * 4 + 4)).refresh vm =
      .ok (twoBuffers, vm') := by
    have hbounds : (twoBuffers.track (1 * 4) (1 * 4 + 4)).track (0 * 4) (0 * 4 + 4) =
        { twoBuffers with lowestOffset := some 0, highestOffset := some 8 } := by decide
    have hcopy : checkedSub Panic.pixelOverflow 8 0 = .ok 8 := rfl
    have hsrc : (lowPage.startAddress + 2048 + 0) % 2 ^ 64 = lowPage.startAddress + 2048 :=
      by decide
    have hdst : (lowPage.startAddress + 0) % 2 ^ 64 = lowPage.startAddress + 0 := by decide
    have hensure : ensure Panic.pixelPointer ((8 = 0 ∨ lowPage.startAddress + 2048 ≠ 0 ∧
        lowPage.startAddress + 0 ≠ 0) ∧
        (lowPage.startAddress + 2048 + 8 ≤ lowPage.startAddress + 0 ∨
          lowPage.startAddress + 0 + 8 ≤ lowPage.startAddress + 2048)) = .ok () := by decide
    rw [hbounds]
    simp only [Framebuffer.refresh, twoBuffers, twoPixels, Option.getD_some, hcopy,
      except_ok_bind, hsrc, hdst, hensure, hload, hstore]
  -- the second pixel starts before the first one
  have hspaced : Spaced ([⟨1, 0, .ofRgb 255 0 0⟩, ⟨0, 0, .ofRgb 255 0 0⟩].map
      (Drawing.offset twoBuffers)) := by
    show Spaced ([] ++ [4] ++ [0])
    refine spaced_snoc.mpr
      ⟨spaced_snoc.mpr ⟨spaced_nil, .inl rfl⟩, .inr (.inr ⟨4, ?_, Nat.zero_le 4⟩)⟩
    exact List.mem_singleton_self 4
  obtain ⟨hcovers, hcopies⟩ := dirty_covers_iff hrenewed hrun
  refine ⟨vm₀, _, vm, _, vm', hrenewed, hrun, hcovers.mpr hspaced, hrefresh, fun k hk => ?_⟩
  exact hcopies hspaced _ _ _ rfl (hvm.separate (by decide)) hrefresh _ (List.mem_cons_self ..) k hk

/-- The second of two neighbours starts where the bounds end, and stays outside: `set_pixel` moves
the upper bound only for an offset that is larger than it. -/
theorem adjacent_not_covered : ∃ vm₀ fb vm, Renewed (twoBuffers, vm₀) ∧
    Run Draw (twoBuffers, vm₀) [⟨0, 0, .ofRgb 255 0 0⟩, ⟨1, 0, .ofRgb 255 0 0⟩] (fb, vm) ∧
    twoBuffers.offset 1 0 = 4 ∧ fb.lowestOffset = some 0 ∧ fb.highestOffset = some 4 ∧
    ¬ fb.HasWord 4 := by
  obtain ⟨vm₀, vm, hrenewed, -, hrun⟩ :=
    exists_two_drawn 0 1 (by decide) (by decide) (.ofRgb 255 0 0)
  refine ⟨vm₀, _, vm, hrenewed, hrun, by decide, by decide, by decide, ?_⟩
  rintro ⟨_, highest, -, hhigh, -, hend⟩
  cases hhigh
  exact absurd hend (by decide)

end HeliumOS.Dev
