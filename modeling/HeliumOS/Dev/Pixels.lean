import HeliumOS.Dev.Framebuffer
import Mathlib.Data.Nat.ModEq
import Mathlib.Tactic.IntervalCases

/-!
# Where Pixels Land

`set_pixel` computes the offset of a pixel in bytes, and adds it to a pointer to words.

- `storeWord_physMem`: the store replaces four bytes of physical memory and nothing else.
- `offset_apart` and `offset_lt`: the offsets of two pixels are a word apart, and the words are in
  the buffer.
- `setPixel_lands_iff`: the word is written where the offset says for the first pixel of the screen
  only.  Words of different pixels do not meet, but they need not be in the buffer.
- `pixel_leaves_buffer`: the second pixel of a screen of two.
-/

namespace HeliumOS.Dev

open HeliumOS.Lib HeliumOS.Lib.Radix HeliumOS.Mem HeliumOS.Mem.Virt

/-! ## Stores of words -/

section Stores

variable {vm vm' : Vm} {adr : ℕ} {v : BitVec 32}

theorem wordBytes_eq (v : BitVec 32) : wordBytes v =
    [v.setWidth 8, (v >>> 8).setWidth 8, (v >>> 16).setWidth 8, (v >>> 24).setWidth 8] := by
  simp only [wordBytes, leBytes, List.cons.injEq, and_true]
  refine ⟨?_, ?_, ?_, ?_⟩ <;>
  · apply BitVec.eq_of_toNat_eq
    simp [Nat.shiftRight_eq_div_pow, Nat.div_div_eq_div_mul]

/-- The bytes of a word after one half of it has been replaced. -/
theorem getByte_setHalf (w : BitVec 64) {k k' : ℕ} (hk : k = 0 ∨ k = 4) (hk' : k' < 8)
    (v : BitVec 32) :
    getByte (setHalf w k v) k' =
      if k ≤ k' then (wordBytes v).getD (k' - k) (getByte w k') else getByte w k' := by
  rw [wordBytes_eq]
  unfold setHalf
  rcases hk with rfl | rfl
  all_goals
    rw [getByte_setByte _ (by decide) hk', getByte_setByte _ (by decide) hk',
      getByte_setByte _ (by decide) hk', getByte_setByte _ (by decide) hk']
    interval_cases k' <;> simp

/-- A store replaces the four bytes behind its address. An aligned word does not cross a page, so
that all of them are in the frame of one page. -/
theorem storeWord_physMem (haligned : adr % 4 = 0) (h : storeWord vm adr v = .ok vm') :
    ∃ (q : Page) (f : PhysFrame), q.num = adr / pageSize ∧ vm.frameOf q = .ok f ∧
      physMem vm' = (physMem vm).store (f.num * pageSize + adr % pageSize) v := by
  unfold storeWord at h
  split_ifs at h with hcanonical
  obtain ⟨f, hf, h⟩ := except_bind_eq_ok.mp h
  obtain rfl := Except.ok.inj h
  refine ⟨_, f, rfl, hf, funext fun a => ?_⟩
  have hk : adr % 8 = 0 ∨ adr % 8 = 4 := by omega
  rw [ByteMemory.store, ByteMemory.write]
  by_cases hword : a / pageSize = f.num ∧ a % pageSize / 8 = adr % pageSize / 8
  · -- the word that is replaced
    obtain ⟨hframe, hindex⟩ := hword
    have hlt := f.isLt
    have hphys : (⟨a / pageSize, hframe ▸ hlt⟩ : PhysFrame) = f := PhysFrame.ext hframe
    have hle : adr % 8 ≤ a % 8 ↔ f.num * pageSize + adr % pageSize ≤ a := by
      simp only [pageSize] at hframe hindex ⊢
      omega
    have hsub : a % 8 - adr % 8 = a - (f.num * pageSize + adr % pageSize) := by
      simp only [pageSize] at hframe hindex ⊢
      omega
    have hbyte : physMem vm a = getByte (vm.mem f ⟨adr % pageSize / 8, word_index_lt adr⟩)
        (a % 8) := by
      rw [physMem, dif_pos (hframe ▸ hlt), hphys]
      simp only [frameByte, hindex]
    rw [hbyte, physMem, dif_pos (hframe ▸ hlt), hphys]
    simp only [frameByte, hindex, Vm.setEntry, Store.set_apply, and_self, if_true]
    rw [getByte_setHalf _ hk (Nat.mod_lt a (by decide)), hsub]
    exact if_congr hle rfl rfl
  · have hsame : physMem (vm.setEntry f ⟨adr % pageSize / 8, word_index_lt adr⟩
        (setHalf (vm.mem f ⟨adr % pageSize / 8, word_index_lt adr⟩) (adr % 8) v)) a =
        physMem vm a := by
      unfold physMem
      split_ifs with hlt
      · simp only [frameByte, Vm.setEntry, Store.set_apply]
        rw [if_neg]
        rintro ⟨hframe, hindex⟩
        exact hword ⟨congrArg PhysFrame.num hframe, Fin.mk.inj hindex⟩
      · rfl
    rw [hsame]
    split_ifs with hle
    · rw [List.getD_eq_default]
      rw [length_wordBytes]
      simp only [pageSize] at hword hle ⊢
      omega
    · rfl

end Stores

/-! ## Offsets -/

namespace Framebuffer

/-- The offset of a pixel. -/
def offset (fb : Framebuffer) (x y : ℕ) : ℕ := y * fb.scanline + x * 4

/-- The bytes of the buffer. -/
def bufferBytes (fb : Framebuffer) : Set ℕ :=
  {a | fb.base ≤ a ∧ a < fb.base + fb.scanline * fb.height}

/-- The four bytes at the offset of a pixel. -/
def pixelBytes (fb : Framebuffer) (x y : ℕ) : Set ℕ :=
  {a | fb.base + fb.offset x y ≤ a ∧ a < fb.base + fb.offset x y + 4}

/-- The four bytes that `set_pixel` writes. -/
def writtenBytes (fb : Framebuffer) (x y : ℕ) : Set ℕ :=
  {a | fb.address (fb.offset x y) ≤ a ∧ a < fb.address (fb.offset x y) + 4}

end Framebuffer

section Offsets

variable {fb : Framebuffer} {x y x' y' : ℕ}

/-- A pixel ends before the next row starts. -/
theorem offset_of_lt (hgeometry : 4 * fb.width ≤ fb.scanline) (hx : x < fb.width) (hy : y < y')
    (x' : ℕ) :
    fb.offset x y + 4 ≤ fb.offset x' y' := by
  have hrow : (y + 1) * fb.scanline ≤ y' * fb.scanline := Nat.mul_le_mul_right _ hy
  rw [Nat.add_one_mul] at hrow
  simp only [Framebuffer.offset]
  omega

theorem offset_le (hgeometry : 4 * fb.width ≤ fb.scanline) (hx : x < fb.width)
    (hy : y < fb.height) :
    fb.offset x y + 4 ≤ fb.scanline * fb.height := by
  have hlast := offset_of_lt hgeometry hx hy 0
  rwa [Framebuffer.offset, Framebuffer.offset, Nat.zero_mul, Nat.add_zero, Nat.mul_comm fb.height]
    at hlast

/-- The offsets of two pixels are a word apart. -/
theorem offset_apart (hgeometry : 4 * fb.width ≤ fb.scanline) (hx : x < fb.width)
    (hx' : x' < fb.width) (hne : (x, y) ≠ (x', y')) :
    fb.offset x y + 4 ≤ fb.offset x' y' ∨ fb.offset x' y' + 4 ≤ fb.offset x y := by
  rcases Nat.lt_trichotomy y y' with hlt | rfl | hgt
  · exact .inl (offset_of_lt hgeometry hx hlt x')
  · have hcolumn : x ≠ x' := fun h => hne (by rw [h])
    simp only [Framebuffer.offset]
    omega
  · exact .inr (offset_of_lt hgeometry hx' hgt x)

theorem offset_eq_zero_iff (hscanline : 0 < fb.scanline) : fb.offset x y = 0 ↔ x = 0 ∧ y = 0 := by
  rw [Framebuffer.offset, Nat.add_eq_zero_iff, Nat.mul_eq_zero]
  omega

end Offsets

/-! ## Pixels -/

section Pixels

variable {fb fb' : Framebuffer} {vm vm' : Vm} {x y x' y' : ℕ} {pixel : PixelColor}

/-- Four bytes determine where they start. -/
theorem fourBytes_inj {a b : ℕ} : {c | a ≤ c ∧ c < a + 4} = {c | b ≤ c ∧ c < b + 4} ↔ a = b := by
  constructor
  · intro h
    have ha : a ∈ {c | b ≤ c ∧ c < b + 4} := h ▸ ⟨le_rfl, by omega⟩
    have hb : b ∈ {c | a ≤ c ∧ c < a + 4} := h ▸ ⟨le_rfl, by omega⟩
    exact Nat.le_antisymm hb.1 ha.1
  · rintro rfl
    rfl

/-- Four times an offset is the offset itself on 64-bit addresses for zero only, as 3 is odd. -/
theorem wrapped_eq_iff {b o : ℕ} (hlt : b + o < 2 ^ 64) : (b + 4 * o) % 2 ^ 64 = b + o ↔ o = 0 := by
  have hsum : b + 4 * o = b + o + 3 * o := by omega
  have ho : o < 2 ^ 64 := by omega
  rw [hsum]
  constructor
  · intro h
    have hmod : b + o + 3 * o ≡ b + o + 0 [MOD 2 ^ 64] := h.trans (Nat.mod_eq_of_lt hlt).symm
    have hdvd : 2 ^ 64 ∣ 3 * o := Nat.modEq_zero_iff_dvd.mp (Nat.ModEq.add_left_cancel' _ hmod)
    have hcoprime : Nat.Coprime (2 ^ 64) 3 := by decide
    exact Nat.eq_zero_of_dvd_of_lt (hcoprime.dvd_of_dvd_mul_left hdvd) ho
  · rintro rfl
    exact Nat.mod_eq_of_lt hlt

/-- The word of a pixel is where the offset says for the first pixel only. -/
theorem writtenBytes_eq_iff (hgeometry : 4 * fb.width ≤ fb.scanline)
    (hbuffer : fb.base + fb.scanline * fb.height ≤ 2 ^ 64) (hx : x < fb.width)
    (hy : y < fb.height) :
    fb.writtenBytes x y = fb.pixelBytes x y ↔ x = 0 ∧ y = 0 := by
  have hle := offset_le hgeometry hx hy
  rw [← offset_eq_zero_iff (show 0 < fb.scanline by omega), Framebuffer.writtenBytes,
    Framebuffer.pixelBytes, fourBytes_inj, Framebuffer.address]
  exact wrapped_eq_iff (by omega)

/-- The word of a pixel is in the buffer in the first quarter of it. -/
theorem writtenBytes_subset_iff (hgeometry : 4 * fb.width ≤ fb.scanline)
    (hbuffer : fb.base + fb.scanline * fb.height ≤ 2 ^ 64)
    (hsmall : fb.scanline * fb.height ≤ 2 ^ 62)
    (hx : x < fb.width) (hy : y < fb.height) :
    fb.writtenBytes x y ⊆ fb.bufferBytes ↔ 4 * fb.offset x y + 4 ≤ fb.scanline * fb.height := by
  have hle := offset_le hgeometry hx hy
  constructor
  · intro h
    have hlast : fb.address (fb.offset x y) + 3 ∈ fb.bufferBytes := h ⟨by omega, by omega⟩
    have hfirst : fb.address (fb.offset x y) ∈ fb.bufferBytes := h ⟨le_rfl, by omega⟩
    have hlo := hfirst.1
    have hhi := hlast.2
    rw [Framebuffer.address] at hlo hhi
    omega
  · rintro h a ⟨hlo, hhi⟩
    rw [Framebuffer.address] at hlo hhi
    exact ⟨by omega, by omega⟩

/-- The words of two pixels do not meet. -/
theorem writtenBytes_disjoint (hgeometry : 4 * fb.width ≤ fb.scanline)
    (hsmall : fb.scanline * fb.height ≤ 2 ^ 62) (hx : x < fb.width) (hy : y < fb.height)
    (hx' : x' < fb.width) (hy' : y' < fb.height) (hne : (x, y) ≠ (x', y')) :
    Disjoint (fb.writtenBytes x y) (fb.writtenBytes x' y') := by
  have hle := offset_le hgeometry hx hy
  have hle' := offset_le hgeometry hx' hy'
  have hapart := offset_apart hgeometry hx hx' hne
  refine Set.disjoint_left.mpr ?_
  rintro a ⟨hlo, hhi⟩ ⟨hlo', hhi'⟩
  rw [Framebuffer.address] at hlo hhi hlo' hhi'
  omega

/-- **Where a pixel lands.**  A call of `set_pixel` that returns replaces four bytes: those at the
offset of the pixel when it is the first one of the screen, and others for every other pixel.  The
bytes of two pixels are different ones, unless the buffer has more than `2 ^ 62` bytes. -/
theorem setPixel_lands_iff (hgeometry : 4 * fb.width ≤ fb.scanline)
    (hbuffer : fb.base + fb.scanline * fb.height ≤ 2 ^ 64)
    (h : fb.setPixel x y pixel vm = .ok (fb', vm')) :
    (∃ (w : BitVec 32) (q : Page) (f : PhysFrame), pixel.word fb.format = .ok w ∧
      q.num = fb.address (fb.offset x y) / pageSize ∧ vm.frameOf q = .ok f ∧
      physMem vm' = (physMem vm).store
      (f.num * pageSize + fb.address (fb.offset x y) % pageSize) w) ∧
    fb.pixelBytes x y ⊆ fb.bufferBytes ∧
    (fb.writtenBytes x y = fb.pixelBytes x y ↔ x = 0 ∧ y = 0) ∧
    (fb.scanline * fb.height ≤ 2 ^ 62 →
      (fb.writtenBytes x y ⊆ fb.bufferBytes ↔ 4 * fb.offset x y + 4 ≤ fb.scanline * fb.height) ∧
      ∀ x' < fb.width, ∀ y' < fb.height, (x, y) ≠ (x', y') →
        Disjoint (fb.writtenBytes x y) (fb.writtenBytes x' y')) := by
  obtain ⟨hdraws, w, hw, hstore, -⟩ := setPixel_eq_ok.mp h
  have hle := offset_le hgeometry hdraws.width hdraws.height
  refine ⟨?_, ?_, writtenBytes_eq_iff hgeometry hbuffer hdraws.width hdraws.height, fun hsmall =>
    ⟨writtenBytes_subset_iff hgeometry hbuffer hsmall hdraws.width hdraws.height,
      fun x' hx' y' hy' => writtenBytes_disjoint hgeometry hsmall hdraws.width hdraws.height
      hx' hy'⟩⟩
  · obtain ⟨q, f, hq, hf, hphys⟩ := storeWord_physMem hdraws.aligned hstore
    exact ⟨w, q, f, hw, hq, hf, hphys⟩
  · rintro a ⟨hlo, hhi⟩
    exact ⟨by omega, by omega⟩

end Pixels

/-! ## A page of memory -/

/-- Memory where a page of the user half shows a frame that is no page table. -/
structure Shown (vm : Vm) : Prop where
  backs : Backs vm lowPage 0 [lowFrame]
  data : Disjoint {f | f ∈ [lowFrame]} vm.tables

section Shown

variable {vm vm' : Vm}

theorem exists_shown : ∃ vm, Shown vm := by
  have hpages : PagesExist lowPage 0 [lowFrame].length := fun k _ hk =>
    ⟨lowPage, by rw [show k = 0 by simpa using hk]; rfl, by decide⟩
  have hable : Able freshVm freshPmm (4092 + 3 * [lowFrame].length) := able_fresh
  have hflags : PageTableFlags.WRITABLE.contains .HUGE_PAGE = false := by decide
  obtain ⟨vm, pmm, hrun, -⟩ := hable.run ((Workable.of_able hable).vmapMany hpages hflags)
  obtain ⟨hret, -⟩ := AllocProg.run_returns PhysicalFrameAllocator.freeSet hable.sound hrun
  obtain ⟨hev, hbacks⟩ := vmapMany_evolves hable.ready.inv hable.fresh hret
  refine ⟨vm, hbacks, Set.disjoint_left.mpr fun f hf hmem => ?_⟩
  obtain rfl := List.mem_singleton.mp hf
  rcases hev.tables hmem with hmem | ⟨hmem, -⟩
  · exact absurd (freshVm_tables hmem) (by decide)
  · exact absurd (num_of_mem_freshPmm_free hmem) (by decide)

theorem Shown.translate (h : Shown vm) :
    ∃ flags, vm.translate lowPage = some ⟨lowFrame, flags⟩ := by
  obtain ⟨q, flags, hq, htrans⟩ := h.backs 0 lowFrame rfl
  obtain rfl : lowPage = q := Page.ext (Page.add_eq_ok.mp hq).symm
  exact ⟨flags, htrans⟩

theorem Shown.of_dataOnly (h : Shown vm) (hdata : DataOnly vm vm' {f | f ∈ [lowFrame]}) :
    Shown vm' :=
  ⟨h.backs.of_dataOnly hdata h.data, hdata.tables_eq h.data ▸ h.data⟩

theorem Shown.covers (h : Shown vm) :
    Covers vm lowPage.startAddress (lowFrame.num * pageSize) pageSize := fun k hk => by
  obtain ⟨flags, htrans⟩ := h.translate
  simp only [pageSize] at hk
  refine ⟨lowPage, lowFrame, flags, ?_, ?_, ?_, htrans⟩ <;>
  · simp only [Page.startAddress, lowPage, lowFrame, pageSize]
    omega

end Shown

/-! ## A screen of two pixels -/

/-- Two pixels in eight bytes, at the start of a page. -/
def twoPixels : Framebuffer := ⟨.argb, 2, 1, 8, lowPage.startAddress, none, none, none⟩

/-- Virtual memory where that page has a frame. -/
theorem exists_lowPage_mapped : ∃ vm, ∀ adr, adr / pageSize = lowPage.num → Mapped vm adr := by
  obtain ⟨vm, hvm⟩ := exists_shown
  refine ⟨vm, fun adr hadr => ?_⟩
  have hsplit : adr = lowPage.startAddress + adr % pageSize := by
    simp only [Page.startAddress, pageSize] at hadr ⊢
    omega
  rw [hsplit]
  exact ⟨_, hvm.covers.loadByte (Nat.mod_lt adr (by decide))⟩

theorem twoPixels_draws {vm : Vm} (hvm : ∀ adr, adr / pageSize = lowPage.num → Mapped vm adr)
    {x : ℕ} (hx : x < 2) : twoPixels.Draws vm x 0 := by
  interval_cases x <;>
    exact ⟨by decide, by decide, by decide, by decide, by decide, .inl rfl, by decide, by decide,
      hvm _ (by decide)⟩

theorem setPixel_lands_first : ∃ vm fb' vm',
    twoPixels.setPixel 0 0 (.ofRgb 255 0 0) vm = .ok (fb', vm') ∧
      twoPixels.writtenBytes 0 0 = twoPixels.pixelBytes 0 0 := by
  obtain ⟨vm, hvm⟩ := exists_lowPage_mapped
  obtain ⟨⟨fb', vm'⟩, hset⟩ := setPixel_returns_iff.mpr (twoPixels_draws hvm (x := 0) (by decide))
  exact ⟨vm, fb', vm', hset,
    (setPixel_lands_iff (by decide) (by decide) hset).2.2.1.mpr ⟨rfl, rfl⟩⟩

/-- The second pixel is drawn, and its word is behind the eight bytes of the buffer. -/
theorem pixel_leaves_buffer : 4 * twoPixels.width ≤ twoPixels.scanline ∧ ∃ vm fb' vm',
    twoPixels.setPixel 1 0 (.ofRgb 255 0 0) vm = .ok (fb', vm') ∧
      twoPixels.pixelBytes 1 0 = {a | twoPixels.base + 4 ≤ a ∧ a < twoPixels.base + 4 + 4} ∧
      twoPixels.writtenBytes 1 0 = {a | twoPixels.base + 16 ≤ a ∧ a < twoPixels.base + 16 + 4} ∧
      Disjoint (twoPixels.writtenBytes 1 0) twoPixels.bufferBytes := by
  obtain ⟨vm, hvm⟩ := exists_lowPage_mapped
  obtain ⟨⟨fb', vm'⟩, hset⟩ := setPixel_returns_iff.mpr (twoPixels_draws hvm (x := 1) (by decide))
  have haddress : twoPixels.address (twoPixels.offset 1 0) = twoPixels.base + 16 := by decide
  have hoffset : twoPixels.offset 1 0 = 4 := by decide
  have hsize : twoPixels.scanline * twoPixels.height = 8 := by decide
  refine ⟨by decide, vm, fb', vm', hset, ?_, ?_, Set.disjoint_left.mpr ?_⟩
  · rw [Framebuffer.pixelBytes, hoffset]
  · rw [Framebuffer.writtenBytes, haddress]
  · rintro a ⟨hlo, -⟩ ⟨-, hhi⟩
    rw [haddress] at hlo
    rw [hsize] at hhi
    omega

end HeliumOS.Dev
