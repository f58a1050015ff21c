import HeliumOS.Mem.Data

/-!
# The Framebuffer

`dev/framebuffer.rs`: drawing a pixel, without double buffering being refreshed.

`set_pixel` computes the offset of a pixel in bytes and adds it to a pointer to 32-bit words, so the
word that it writes lies four times as far from the start of the buffer.  The kernel is built in the
debug profile: overflow, `assert!`, `debug_assert!` and the check of `write_volatile` all panic.

- `Draws` collects what must hold for a pixel to be drawn.
- `setPixel_returns_iff`: a pixel is drawn exactly then.
-/

namespace HeliumOS.Dev

open HeliumOS.Lib HeliumOS.Mem HeliumOS.Mem.Virt

/-! ## Definitions -/

/-- `FramebufferFormat`. -/
inductive FramebufferFormat where
  | argb | idk1 | idk2 | bgra
  deriving DecidableEq, Repr

/-- `PixelColor`. -/
structure PixelColor where
  red : BitVec 8
  green : BitVec 8
  blue : BitVec 8
  alpha : BitVec 8
  deriving DecidableEq, Repr

/-- The conversion from three components. -/
def PixelColor.ofRgb (red green blue : BitVec 8) : PixelColor := ⟨red, green, blue, 255⟩

/-- Four bytes as a word, the first one on top. -/
def packWord (a b c d : BitVec 8) : BitVec 32 :=
  a.setWidth 32 <<< 24 ||| b.setWidth 32 <<< 16 ||| c.setWidth 32 <<< 8 ||| d.setWidth 32

/-- `PixelColor::word`.  Two of the formats are `todo!()`. -/
def PixelColor.word (pixel : PixelColor) : FramebufferFormat → Except Panic (BitVec 32)
  | .argb => .ok (packWord pixel.alpha pixel.red pixel.green pixel.blue)
  | .idk1 => .error .pixelFormat
  | .idk2 => .error .pixelFormat
  | .bgra => .ok (packWord pixel.blue pixel.green pixel.red pixel.alpha)

/-- `Framebuffer`.  The double buffer is given by the address of its first byte. -/
structure Framebuffer where
  format : FramebufferFormat
  width : ℕ
  height : ℕ
  scanline : ℕ
  ptr : ℕ
  lowestOffset : Option ℕ
  highestOffset : Option ℕ
  doubleBuffer : Option ℕ
  deriving DecidableEq, Repr

/-- A word of 32 bits put into a word of 64 bits, from byte `k` on. -/
def setHalf (w : BitVec 64) (k : ℕ) (v : BitVec 32) : BitVec 64 :=
  setByte (setByte (setByte (setByte w k (v.setWidth 8)) (k + 1) ((v >>> 8).setWidth 8)) (k + 2)
    ((v >>> 16).setWidth 8)) (k + 3) ((v >>> 24).setWidth 8)

/-- Store an aligned 32-bit word at a virtual address. -/
def storeWord (vm : Vm) (adr : ℕ) (v : BitVec 32) : Except Panic Vm :=
  if h : adr / pageSize < 2 ^ 35 ∨ 2 ^ 52 - 2 ^ 35 ≤ adr / pageSize ∧
    adr / pageSize < 2 ^ 52 then do
    let f ← vm.frameOf ⟨adr / pageSize, h⟩
    let i : Fin 512 := ⟨adr % pageSize / 8, word_index_lt adr⟩
    .ok (vm.setEntry f i (setHalf (vm.mem f i) (adr % 8) v))
  else .error .pageFault

/-- `write_volatile` through a pointer to words. -/
def writeVolatile (vm : Vm) (adr : ℕ) (v : BitVec 32) : Except Panic Vm := do
  ensure .pixelPointer (adr % 4 = 0 ∧ adr ≠ 0)
  storeWord vm adr v

namespace Framebuffer

/-- Where the words are written to. -/
def base (fb : Framebuffer) : ℕ := fb.doubleBuffer.getD fb.ptr

/-- `final_ptr.add(offset)`: the pointer is one to words of four bytes, and it wraps around. -/
def address (fb : Framebuffer) (offset : ℕ) : ℕ := (fb.base + 4 * offset) % 2 ^ 64

/-- Keep track of the range that was written to.  Each bound is inserted before it is compared. -/
def track (fb : Framebuffer) (offset stop : ℕ) : Framebuffer :=
  let lowest := fb.lowestOffset.getD offset
  let highest := fb.highestOffset.getD stop
  { fb with
    lowestOffset := some (if offset < lowest then offset else lowest)
    highestOffset := some (if highest < offset then stop else highest) }

/-- `Framebuffer::set_pixel`. -/
def setPixel (fb : Framebuffer) (x y : ℕ) (pixel : PixelColor) (vm : Vm) :
    Except Panic (Framebuffer × Vm) := do
  -- the offset is computed before the coordinates are checked
  let row ← checkedMul 64 Panic.pixelOverflow y fb.scanline
  let column ← checkedMul 64 Panic.pixelOverflow x 4
  let offset ← checkedAdd 64 Panic.pixelOverflow row column
  let word ← pixel.word fb.format
  ensure Panic.pixelWidth (x < fb.width)
  ensure Panic.pixelHeight (y < fb.height)
  let bufferLen ← checkedMul 64 Panic.pixelOverflow fb.scanline fb.height
  ensure Panic.pixelOffset (offset < bufferLen)
  let stop ← checkedAdd 64 Panic.pixelOverflow offset 4
  let vm ← writeVolatile vm (fb.address offset) word
  .ok (fb.track offset stop, vm)

end Framebuffer

/-! ## When a pixel is drawn -/

/-- The page of the address is mapped. -/
def Mapped (vm : Vm) (adr : ℕ) : Prop := ∃ b, loadByte vm adr = .ok b

/-- The pixel lies on the screen and in the buffer, its arithmetic does not overflow, the format is
one of the two that are implemented, and the word can be written. -/
structure Framebuffer.Draws (fb : Framebuffer) (vm : Vm) (x y : ℕ) : Prop where
  width : x < fb.width
  height : y < fb.height
  offset : y * fb.scanline + x * 4 < fb.scanline * fb.height
  buffer : fb.scanline * fb.height < 2 ^ 64
  word : y * fb.scanline + x * 4 + 4 < 2 ^ 64
  format : fb.format = .argb ∨ fb.format = .bgra
  aligned : fb.address (y * fb.scanline + x * 4) % 4 = 0
  nonnull : fb.address (y * fb.scanline + x * 4) ≠ 0
  mapped : Mapped vm (fb.address (y * fb.scanline + x * 4))

section Draws

variable {fb : Framebuffer} {vm : Vm} {x y : ℕ} {pixel : PixelColor}

theorem PixelColor.word_returns_iff (pixel : PixelColor) {format : FramebufferFormat} :
    (∃ w, pixel.word format = .ok w) ↔ format = .argb ∨ format = .bgra := by
  cases format <;> simp [PixelColor.word]

theorem storeWord_returns_iff {adr : ℕ} {v : BitVec 32} :
    (∃ vm', storeWord vm adr v = .ok vm') ↔ Mapped vm adr := by
  unfold Mapped storeWord loadByte
  split_ifs with h
  · cases vm.frameOf ⟨adr / pageSize, h⟩ with
    | ok f => simp
    | error e => simp
  · simp

/-- What a call of `set_pixel` does. -/
theorem setPixel_eq_ok {fb' : Framebuffer} {vm' : Vm} :
    fb.setPixel x y pixel vm = .ok (fb', vm') ↔ fb.Draws vm x y ∧
    ∃ w, pixel.word fb.format = .ok w ∧
      storeWord vm (fb.address (y * fb.scanline + x * 4)) w = .ok vm' ∧
      fb' = fb.track (y * fb.scanline + x * 4) (y * fb.scanline + x * 4 + 4) := by
  simp only [Framebuffer.setPixel, writeVolatile, except_bind_eq_ok, checkedMul_eq_ok,
    checkedAdd_eq_ok, ensure_eq_ok]
  constructor
  · rintro ⟨_, ⟨-, rfl⟩, _, ⟨-, rfl⟩, _, ⟨-, rfl⟩, w, hword, _, hwidth, _, hheight, _,
      ⟨hbuffer, rfl⟩, _, hoffset, _, ⟨hstop, rfl⟩, vm', ⟨_, ⟨haligned, hnonnull⟩, hstore⟩, hresult⟩
    cases hresult
    exact ⟨⟨hwidth, hheight, hoffset, hbuffer, hstop, (pixel.word_returns_iff).mp ⟨w, hword⟩,
      haligned, hnonnull, storeWord_returns_iff.mp ⟨_, hstore⟩⟩, w, hword, hstore, rfl⟩
  · rintro ⟨h, w, hw, hstore, rfl⟩
    have hword := h.word
    exact ⟨_, ⟨by omega, rfl⟩, _, ⟨by omega, rfl⟩, _, ⟨by omega, rfl⟩, w, hw, (), h.width, (),
      h.height, _, ⟨h.buffer, rfl⟩, (), h.offset, _, ⟨hword, rfl⟩, vm',
      ⟨(), ⟨h.aligned, h.nonnull⟩, hstore⟩, rfl⟩

/-- A pixel is drawn exactly when it can be. -/
theorem setPixel_returns_iff : (∃ r, fb.setPixel x y pixel vm = .ok r) ↔ fb.Draws vm x y := by
  constructor
  · rintro ⟨⟨fb', vm'⟩, h⟩
    exact (setPixel_eq_ok.mp h).1
  · intro h
    obtain ⟨w, hw⟩ := pixel.word_returns_iff.mpr h.format
    obtain ⟨vm', hstore⟩ := (storeWord_returns_iff (v := w)).mpr h.mapped
    exact ⟨(_, vm'), setPixel_eq_ok.mpr ⟨h, w, hw, hstore, rfl⟩⟩

end Draws

end HeliumOS.Dev
