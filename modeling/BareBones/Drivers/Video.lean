import BareBones.Lib.Rows
import Mathlib.Data.Nat.Bitwise
import Mathlib.Data.UInt

/-!
# The video driver

`videoDriver.c`: pixels of a linear framebuffer and of an auxiliary buffer that the user can put
in its place, and the routines that work on whole screens.

A buffer is a memory of its own.  The coordinates and offsets are `uint64_t`, and none of them
comes near `2^64`, so that they are natural numbers here; what is narrower in the source, the
fields of the mode, the size of the auxiliary buffer and all products of those, is so here too.
-/

namespace BareBones.Drivers

open Lib.Rows

/-! ## State -/

/-- The bytes of a buffer. -/
abbrev Bytes := Nat → UInt8

/-- What the driver reads of `struct vbe_mode_info_structure`. -/
structure VbeModeInfo where
  pitch : UInt16
  width : UInt16
  height : UInt16
  bpp : UInt8

/-- The mode, the framebuffer, and the static variables of the driver; no auxiliary buffer is the
null pointer. -/
structure Video where
  VBE_mode_info : VbeModeInfo
  framebuffer : Bytes
  auxFramebuffer : Option Bytes
  auxBuffWidth : UInt32
  auxBuffHeight : UInt32

namespace Video

/-- `getScreenWidth` -/
def getScreenWidth (v : Video) : UInt16 :=
  if v.auxFramebuffer.isNone then v.VBE_mode_info.width else v.auxBuffWidth.toUInt16

/-- `getScreenHeight` -/
def getScreenHeight (v : Video) : UInt16 :=
  if v.auxFramebuffer.isNone then v.VBE_mode_info.height else v.auxBuffHeight.toUInt16

/-- `withinScreenBounds` -/
def withinScreenBounds (v : Video) (x y : Nat) : Prop :=
  x < v.getScreenWidth.toNat ∧ y < v.getScreenHeight.toNat

instance (v : Video) (x y : Nat) : Decidable (v.withinScreenBounds x y) :=
  inferInstanceAs (Decidable (_ ∧ _))

/-- What `getFrameBuffer` points to. -/
def getFrameBuffer (v : Video) : Bytes := v.auxFramebuffer.getD v.framebuffer

/-- New contents of the buffer that `getFrameBuffer` points to. -/
def setFrameBuffer (v : Video) (m : Bytes) : Video :=
  match v.auxFramebuffer with
  | none => { v with framebuffer := m }
  | some _ => { v with auxFramebuffer := some m }

/-- `setAuxFramebuffer` -/
def setAuxFramebuffer (v : Video) (buffer : Option Bytes) (width height : UInt32) : Video :=
  if buffer.isNone then { v with auxFramebuffer := buffer, auxBuffWidth := 0, auxBuffHeight := 0 }
  else { v with auxFramebuffer := buffer, auxBuffWidth := width, auxBuffHeight := height }

/-- `getVideoOffset` -/
def getVideoOffset (v : Video) (x y : Nat) : Nat :=
  if v.auxFramebuffer.isNone then
    x * (v.VBE_mode_info.bpp.toNat / 8) + y * v.VBE_mode_info.pitch.toNat
  else (x + y * v.auxBuffWidth.toNat) * 3

/-! ## Pixels -/

/-- The colour at an offset, as `readPixel` puts it together. -/
def pixelAt (m : Bytes) (offset : Nat) : UInt32 :=
  (m offset).toUInt32 ||| (m (offset + 1)).toUInt32 <<< 8 ||| (m (offset + 2)).toUInt32 <<< 16

/-- The three bytes of a pixel. -/
def storePixel (m : Bytes) (offset : Nat) (blue green red : UInt8) : Bytes :=
  Function.update (Function.update (Function.update m offset blue) (offset + 1) green)
    (offset + 2) red

/-- The blue byte of a colour. -/
def blueOf (color : UInt32) : UInt8 := (color &&& 0xFF).toUInt8

/-- The green byte of a colour. -/
def greenOf (color : UInt32) : UInt8 := (color >>> 8 &&& 0xFF).toUInt8

/-- The red byte of a colour. -/
def redOf (color : UInt32) : UInt8 := (color >>> 16 &&& 0xFF).toUInt8

/-- A channel of `alphaBlend`; the sum is an `int`. -/
def blendChannel (alpha fg bg : UInt8) : UInt8 :=
  UInt8.ofNat ((fg.toNat * alpha.toNat + bg.toNat * (0xFF - alpha.toNat)) / 0xFF)

/-- `alphaBlend` -/
def alphaBlend (fgColor bgColor : UInt32) (alpha : UInt8) : UInt32 :=
  if alpha = 0 then bgColor
  else if alpha = 0xFF then fgColor
  else
    let outR := blendChannel alpha (redOf fgColor) (redOf bgColor)
    let outG := blendChannel alpha (greenOf fgColor) (greenOf bgColor)
    let outB := blendChannel alpha (blueOf fgColor) (blueOf bgColor)
    outR.toUInt32 <<< 16 ||| outG.toUInt32 <<< 8 ||| outB.toUInt32

/-- `readPixel` -/
def readPixel (v : Video) (x y : Nat) : UInt32 :=
  if v.withinScreenBounds x y then pixelAt v.getFrameBuffer (v.getVideoOffset x y) else 0

/-- The opacity of a colour; none is all. -/
def alphaOf (colorARGB : UInt32) : UInt8 :=
  let alpha := (colorARGB >>> 24 &&& 0xFF).toUInt8
  if alpha = 0 then 0xFF else alpha

/-- `blendPixel` -/
def blendPixel (v : Video) (colorARGB : UInt32) (x y : Nat) : UInt32 :=
  if v.withinScreenBounds x y then
    alphaBlend (colorARGB &&& 0x00FFFFFF) (v.readPixel x y) (alphaOf colorARGB)
  else 0

/-- `putPixel` -/
def putPixel (hexColor : UInt32) (x y : Nat) (v : Video) : Video :=
  if v.withinScreenBounds x y then
    let hexColor := v.blendPixel hexColor x y
    v.setFrameBuffer (storePixel v.getFrameBuffer (v.getVideoOffset x y)
      (blueOf hexColor) (greenOf hexColor) (redOf hexColor))
  else v

/-! ## Whole screens -/

/-- `setBackground` -/
def setBackground (v : Video) (color : UInt32) : Video :=
  let width := v.getScreenWidth.toNat
  let height := v.getScreenHeight.toNat
  v.setFrameBuffer <| forUpTo height (fun y ↦ forUpTo width fun x m ↦
    storePixel m ((y * width + x) * 3) (blueOf color) (greenOf color) (redOf color))
    v.getFrameBuffer

/-- How `renderAux` copies a row: eight bytes at a time, then the remaining ones. -/
def copyRow (dst : Bytes) (fbRow : Nat) (src : Bytes) (auxRow copyRowBytes : Nat) : Bytes :=
  let chunks := copyRowBytes / 8
  let remainder := copyRowBytes % 8
  let dst := forUpTo chunks (fun i m ↦
    blit m (fbRow + i * 8) 8 fun k ↦ src (auxRow + i * 8 + k)) dst
  forUpTo remainder (fun i m ↦
    Function.update m (fbRow + chunks * 8 + i) (src (auxRow + chunks * 8 + i))) dst

/-- `renderAux`.  The row of the auxiliary buffer is a product of 32 bits. -/
def renderAux (v : Video) : Video :=
  match v.auxFramebuffer with
  | none => v
  | some auxFramebuffer =>
      let copyWidth := min v.auxBuffWidth.toNat v.VBE_mode_info.width.toNat
      let copyHeight := min v.auxBuffHeight.toNat v.VBE_mode_info.height.toNat
      let copyRowBytes := copyWidth * 3
      let auxRowBytes := (v.auxBuffWidth * 3).toNat
      let fbRowBytes := v.VBE_mode_info.width.toNat * 3
      { v with
        framebuffer := forUpTo copyHeight (fun y m ↦
          copyRow m (y * fbRowBytes) auxFramebuffer (y * auxRowBytes) copyRowBytes)
          v.framebuffer }

/-- `scrollUp`: in the auxiliary buffer pixel by pixel, in the framebuffer byte by byte. -/
def scrollUp (v : Video) (pixelRows : Nat) (fillColor : UInt32) : Video :=
  let w := v.getScreenWidth.toNat
  let h := v.getScreenHeight.toNat
  if pixelRows = 0 ∨ pixelRows ≥ h then v
  else if v.auxFramebuffer.isSome then
    let v := forUpTo (h - pixelRows) (fun y ↦ forUpTo w fun x v ↦
      v.putPixel (v.readPixel x (y + pixelRows)) x y) v
    forUpTo pixelRows (fun i ↦ forUpTo w fun x v ↦
      v.putPixel fillColor x (h - pixelRows + i)) v
  else
    let pitch := v.VBE_mode_info.pitch.toNat
    let bpp := v.VBE_mode_info.bpp.toNat / 8
    let m := forUpTo (h - pixelRows) (fun dst ↦ forUpTo (w * bpp) fun i m ↦
      Function.update m (dst * pitch + i) (m ((dst + pixelRows) * pitch + i))) v.framebuffer
    let m := forUpTo pixelRows (fun i ↦ forUpTo w fun x m ↦
      storePixel m ((h - pixelRows + i) * pitch + x * bpp)
        (blueOf fillColor) (greenOf fillColor) (redOf fillColor)) m
    { v with framebuffer := m }

/-! ## Bytes of a colour -/

section Colours

variable {c : UInt32} {m : Bytes} {o k : Nat} {b g r alpha fg bg : UInt8}

theorem and_mask (n : Nat) : n &&& 255 = n % 256 := Nat.and_two_pow_sub_one_eq_mod n 8

theorem toNat_blueOf (c : UInt32) : (blueOf c).toNat = c.toNat % 256 := by
  simp only [blueOf, UInt32.toNat_toUInt8, UInt32.toNat_and, UInt32.reduceToNat, and_mask]
  omega

theorem toNat_greenOf (c : UInt32) : (greenOf c).toNat = c.toNat / 256 % 256 := by
  simp only [greenOf, UInt32.toNat_toUInt8, UInt32.toNat_and, UInt32.toNat_shiftRight,
    UInt32.reduceToNat, Nat.shiftRight_eq_div_pow, Nat.reduceMod, Nat.reducePow, and_mask]
  omega

theorem toNat_redOf (c : UInt32) : (redOf c).toNat = c.toNat / 65536 % 256 := by
  simp only [redOf, UInt32.toNat_toUInt8, UInt32.toNat_and, UInt32.toNat_shiftRight,
    UInt32.reduceToNat, Nat.shiftRight_eq_div_pow, Nat.reduceMod, Nat.reducePow, and_mask]
  omega

theorem or_reverse (a b c : UInt32) : a ||| b ||| c = c ||| b ||| a := by
  rw [UInt32.or_comm a b, UInt32.or_comm (b ||| a) c, UInt32.or_assoc]

/-- Three bytes put together. -/
theorem toNat_bytes (b g r : UInt8) :
    (b.toUInt32 ||| g.toUInt32 <<< 8 ||| r.toUInt32 <<< 16).toNat =
      b.toNat + 256 * g.toNat + 65536 * r.toNat := by
  have hb := b.toNat_lt
  have hg := g.toNat_lt
  have hr := r.toNat_lt
  have hlow : b.toNat ||| 2 ^ 8 * g.toNat = 2 ^ 8 * g.toNat + b.toNat :=
    (Nat.or_comm _ _).trans (Nat.two_pow_add_eq_or_of_lt hb _).symm
  have hhigh : (2 ^ 8 * g.toNat + b.toNat) ||| 2 ^ 16 * r.toNat =
      2 ^ 16 * r.toNat + (2 ^ 8 * g.toNat + b.toNat) :=
    (Nat.or_comm _ _).trans (Nat.two_pow_add_eq_or_of_lt (by omega) _).symm
  have hg' : g.toNat <<< 8 % 2 ^ 32 = 2 ^ 8 * g.toNat := by
    rw [Nat.shiftLeft_eq, Nat.mul_comm, Nat.mod_eq_of_lt (by omega)]
  have hr' : r.toNat <<< 16 % 2 ^ 32 = 2 ^ 16 * r.toNat := by
    rw [Nat.shiftLeft_eq, Nat.mul_comm, Nat.mod_eq_of_lt (by omega)]
  simp only [UInt32.toNat_or, UInt32.toNat_shiftLeft, UInt8.toNat_toUInt32, UInt32.reduceToNat,
    Nat.reduceMod, hg', hr', hlow, hhigh]
  omega

/-- The byte of a colour that is stored at the distance `k`. -/
def channel (c : UInt32) (k : Nat) : UInt8 :=
  if k = 0 then blueOf c else if k = 1 then greenOf c else redOf c

theorem toNat_channel (hk : k < 3) (c : UInt32) :
    (channel c k).toNat = c.toNat / 256 ^ k % 256 := by
  obtain rfl | rfl | rfl : k = 0 ∨ k = 1 ∨ k = 2 := by omega
  · rw [pow_zero, Nat.div_one]
    exact toNat_blueOf c
  · exact toNat_greenOf c
  · exact toNat_redOf c

/-- The bytes of a colour depend on its three low bytes alone. -/
theorem channel_congr {c' : UInt32} (h : c.toNat % 2 ^ 24 = c'.toNat % 2 ^ 24) (hk : k < 3) :
    channel c k = channel c' k := by
  rw [← UInt8.toNat_inj, toNat_channel hk, toNat_channel hk]
  obtain rfl | rfl | rfl : k = 0 ∨ k = 1 ∨ k = 2 := by omega
  all_goals omega

theorem toNat_pixelAt (m : Bytes) (o : Nat) : (pixelAt m o).toNat =
    (m o).toNat + 256 * (m (o + 1)).toNat + 65536 * (m (o + 2)).toNat :=
  toNat_bytes (m o) (m (o + 1)) (m (o + 2))

/-- A colour that is three bytes put together has these bytes. -/
theorem channel_bytes (b g r : UInt8) (hk : k < 3) (hc : c.toNat =
    b.toNat + 256 * g.toNat + 65536 * r.toNat) :
    channel c k = if k = 0 then b else if k = 1 then g else r := by
  have hb := b.toNat_lt
  have hg := g.toNat_lt
  have hr := r.toNat_lt
  rw [← UInt8.toNat_inj, toNat_channel hk, hc]
  obtain rfl | rfl | rfl : k = 0 ∨ k = 1 ∨ k = 2 := by omega
  · show _ = b.toNat
    omega
  · show _ = g.toNat
    omega
  · show _ = r.toNat
    omega

@[simp] theorem channel_pixelAt (hk : k < 3) : channel (pixelAt m o) k = m (o + k) := by
  rw [channel_bytes _ _ _ hk (toNat_pixelAt m o)]
  obtain rfl | rfl | rfl : k = 0 ∨ k = 1 ∨ k = 2 := by omega
  all_goals rfl

/-- A pixel shows a colour exactly when its bytes are those of the colour. -/
theorem pixelAt_eq_iff (c : UInt32) :
    pixelAt m o = c % 2 ^ 24 ↔ ∀ k < 3, m (o + k) = channel c k := by
  have hmod : (c % 2 ^ 24 : UInt32).toNat = c.toNat % 2 ^ 24 := UInt32.toNat_mod _ _
  constructor
  · intro h k hk
    rw [← channel_pixelAt (m := m) hk, h]
    exact channel_congr (by rw [hmod, Nat.mod_mod]) hk
  · intro h
    have hbytes : ∀ k < 3, (m (o + k)).toNat = c.toNat / 256 ^ k % 256 := by
      intro k hk
      rw [h k hk, toNat_channel hk]
    have h0 := hbytes 0 (by decide)
    have h1 := hbytes 1 (by decide)
    have h2 := hbytes 2 (by decide)
    rw [Nat.add_zero] at h0
    rw [← UInt32.toNat_inj, toNat_pixelAt, hmod, h0, h1, h2]
    omega

/-- Two pixels are the same exactly when their bytes are. -/
theorem pixelAt_eq_pixelAt_iff {m' : Bytes} {o' : Nat} :
    pixelAt m o = pixelAt m' o' ↔ ∀ k < 3, m (o + k) = m' (o' + k) := by
  constructor
  · intro h k hk
    rw [← channel_pixelAt (m := m) hk, h, channel_pixelAt hk]
  · intro h
    have h0 : m o = m' o' := h 0 (by decide)
    rw [← UInt32.toNat_inj, toNat_pixelAt, toNat_pixelAt, h0, h 1 (by decide), h 2 (by decide)]

theorem storePixel_eq_blit (m : Bytes) (o : Nat) (c : UInt32) :
    storePixel m o (blueOf c) (greenOf c) (redOf c) = blit m o 3 (channel c) := by
  unfold storePixel
  rw [update_eq_blit, update_eq_blit, update_eq_blit, blit_append, blit_append]
  refine blit_congr fun k hk ↦ ?_
  obtain rfl | rfl | rfl : k = 0 ∨ k = 1 ∨ k = 2 := by omega
  all_goals rfl

/-! ## Blending -/

theorem toNat_blendChannel (alpha fg bg : UInt8) : (blendChannel alpha fg bg).toNat =
    (fg.toNat * alpha.toNat + bg.toNat * (255 - alpha.toNat)) / 255 := by
  have halpha := alpha.toNat_lt
  have hfg : fg.toNat * alpha.toNat ≤ 255 * alpha.toNat :=
    Nat.mul_le_mul_right _ (Nat.le_of_lt_succ fg.toNat_lt)
  have hbg : bg.toNat * (255 - alpha.toNat) ≤ 255 * (255 - alpha.toNat) :=
    Nat.mul_le_mul_right _ (Nat.le_of_lt_succ bg.toNat_lt)
  unfold blendChannel
  rw [UInt8.toNat_ofNat']
  exact Nat.mod_eq_of_lt (by omega)

/-- An opaque colour replaces the one below. -/
@[simp] theorem blendChannel_opaque (fg bg : UInt8) : blendChannel 0xFF fg bg = fg := by
  rw [← UInt8.toNat_inj, toNat_blendChannel]
  show (fg.toNat * 255 + bg.toNat * 0) / 255 = fg.toNat
  omega

/-- **A colour that is not opaque shows as itself** only over one that is a little lighter. -/
theorem blendChannel_eq_iff (halpha : alpha ≠ 0xFF) : blendChannel alpha fg bg = fg ↔
    fg.toNat ≤ bg.toNat ∧ (bg.toNat - fg.toNat) * (255 - alpha.toNat) < 255 := by
  have hlt : alpha.toNat < 255 := by
    have hne : alpha.toNat ≠ 255 := fun h ↦ halpha (UInt8.toNat_inj.1 h)
    have := alpha.toNat_lt
    omega
  have hsum : alpha.toNat + (255 - alpha.toNat) = 255 := by omega
  rw [← UInt8.toNat_inj, toNat_blendChannel]
  rcases Nat.lt_or_ge bg.toNat fg.toNat with hbelow | habove
  · -- over a darker one the sum stays below
    obtain ⟨d, hd⟩ := Nat.exists_eq_add_of_lt hbelow
    have hdarker : (d + 1) * alpha.toNat ≤ (d + 1) * 254 := Nat.mul_le_mul_left _ (by omega)
    have hvalue : fg.toNat * alpha.toNat + bg.toNat * (255 - alpha.toNat) =
        255 * bg.toNat + (d + 1) * alpha.toNat := by
      calc
        _ = bg.toNat * (alpha.toNat + (255 - alpha.toNat)) + (d + 1) * alpha.toNat := by
          rw [hd]
          ring
        _ = _ := by rw [hsum, Nat.mul_comm]
    rw [hvalue]
    omega
  · obtain ⟨d, hd⟩ := Nat.exists_eq_add_of_le habove
    have hvalue : fg.toNat * alpha.toNat + bg.toNat * (255 - alpha.toNat) =
        255 * fg.toNat + d * (255 - alpha.toNat) := by
      calc
        _ = fg.toNat * (alpha.toNat + (255 - alpha.toNat)) + d * (255 - alpha.toNat) := by
          rw [hd]
          ring
        _ = _ := by rw [hsum, Nat.mul_comm]
    rw [hvalue, hd, Nat.add_sub_cancel_left]
    omega

theorem alphaOf_ne_zero (c : UInt32) : alphaOf c ≠ 0 := by
  simp only [alphaOf]
  split
  · decide
  next h => exact h

/-- A pixel that is read is opaque. -/
@[simp] theorem alphaOf_pixelAt (m : Bytes) (o : Nat) : alphaOf (pixelAt m o) = 0xFF := by
  have hb := (m o).toNat_lt
  have hg := (m (o + 1)).toNat_lt
  have hr := (m (o + 2)).toNat_lt
  have hzero : (pixelAt m o >>> 24 &&& 0xFF).toUInt8 = 0 := by
    rw [← UInt8.toNat_inj]
    simp only [UInt32.toNat_toUInt8, UInt32.toNat_and, UInt32.toNat_shiftRight, toNat_pixelAt,
      UInt32.reduceToNat, Nat.shiftRight_eq_div_pow, Nat.reduceMod, Nat.reducePow, and_mask,
      UInt8.reduceToNat]
    omega
  unfold alphaOf
  rw [hzero]
  rfl

/-- **What `putPixel` puts**, a byte at a time. -/
theorem channel_alphaBlend (c bgColor : UInt32) (hk : k < 3) :
    channel (alphaBlend (c &&& 0x00FFFFFF) bgColor (alphaOf c)) k =
      blendChannel (alphaOf c) (channel c k) (channel bgColor k) := by
  have hmask : (c &&& 0x00FFFFFF).toNat = c.toNat % 2 ^ 24 := by
    simp only [UInt32.toNat_and, UInt32.reduceToNat]
    exact Nat.and_two_pow_sub_one_eq_mod c.toNat 24
  have hsame : ∀ k < 3, channel (c &&& 0x00FFFFFF) k = channel c k := by
    intro k hk
    exact channel_congr (by rw [hmask, Nat.mod_mod]) hk
  unfold alphaBlend
  rw [if_neg (alphaOf_ne_zero c)]
  split
  next hfull => rw [hfull, blendChannel_opaque, hsame k hk]
  next =>
    have hblue : blueOf (c &&& 0x00FFFFFF) = blueOf c := hsame 0 (by decide)
    have hgreen : greenOf (c &&& 0x00FFFFFF) = greenOf c := hsame 1 (by decide)
    have hred : redOf (c &&& 0x00FFFFFF) = redOf c := hsame 2 (by decide)
    rw [hblue, hgreen, hred, channel_bytes (blendChannel (alphaOf c) (blueOf c) (blueOf bgColor))
      (blendChannel (alphaOf c) (greenOf c) (greenOf bgColor))
      (blendChannel (alphaOf c) (redOf c) (redOf bgColor)) hk]
    · obtain rfl | rfl | rfl : k = 0 ∨ k = 1 ∨ k = 2 := by omega
      all_goals rfl
    · rw [← toNat_bytes]
      exact congrArg UInt32.toNat (or_reverse _ _ _)

end Colours

/-! ## Buffers and offsets -/

section Buffers

variable (v : Video) (m m' : Bytes) (x y : Nat)

/-- Only the contents of the buffer in use are new. -/
theorem setFrameBuffer_eq : v.setFrameBuffer m =
    { v with
      framebuffer := if v.auxFramebuffer.isNone then m else v.framebuffer
      auxFramebuffer := v.auxFramebuffer.map fun _ ↦ m } := by
  unfold setFrameBuffer
  split
  next h =>
    rw [h]
    rfl
  next h =>
    rw [h]
    rfl

@[simp] theorem getFrameBuffer_setFrameBuffer : (v.setFrameBuffer m).getFrameBuffer = m := by
  rw [setFrameBuffer_eq, getFrameBuffer]
  cases v.auxFramebuffer with
  | none => rfl
  | some buffer => rfl

@[simp] theorem getScreenWidth_setFrameBuffer :
    (v.setFrameBuffer m).getScreenWidth = v.getScreenWidth := by
  simp only [setFrameBuffer_eq, getScreenWidth, Option.isNone_map]

@[simp] theorem getScreenHeight_setFrameBuffer :
    (v.setFrameBuffer m).getScreenHeight = v.getScreenHeight := by
  simp only [setFrameBuffer_eq, getScreenHeight, Option.isNone_map]

@[simp] theorem withinScreenBounds_setFrameBuffer :
    (v.setFrameBuffer m).withinScreenBounds x y ↔ v.withinScreenBounds x y := by
  unfold withinScreenBounds
  rw [getScreenWidth_setFrameBuffer, getScreenHeight_setFrameBuffer]

/-- The bytes from a pixel to the next one. -/
def pixelBytes : Nat := if v.auxFramebuffer.isNone then v.VBE_mode_info.bpp.toNat / 8 else 3

/-- The bytes from a row to the next one. -/
def rowBytes : Nat :=
  if v.auxFramebuffer.isNone then v.VBE_mode_info.pitch.toNat else v.auxBuffWidth.toNat * 3

theorem getVideoOffset_eq : v.getVideoOffset x y = x * v.pixelBytes + y * v.rowBytes := by
  unfold getVideoOffset pixelBytes rowBytes
  split
  · rfl
  · ring

@[simp] theorem getVideoOffset_setFrameBuffer :
    (v.setFrameBuffer m).getVideoOffset x y = v.getVideoOffset x y := by
  simp only [setFrameBuffer_eq, getVideoOffset, Option.isNone_map]

@[simp] theorem pixelBytes_setFrameBuffer : (v.setFrameBuffer m).pixelBytes = v.pixelBytes := by
  simp only [setFrameBuffer_eq, pixelBytes, Option.isNone_map]

@[simp] theorem rowBytes_setFrameBuffer : (v.setFrameBuffer m).rowBytes = v.rowBytes := by
  simp only [setFrameBuffer_eq, rowBytes, Option.isNone_map]

@[simp] theorem setFrameBuffer_setFrameBuffer :
    (v.setFrameBuffer m).setFrameBuffer m' = v.setFrameBuffer m' := by
  simp only [setFrameBuffer_eq, Option.isNone_map, Option.map_map]
  split
  · rfl
  · rfl

theorem readPixel_of_within {v : Video} {x y : Nat} (h : v.withinScreenBounds x y) :
    v.readPixel x y = pixelAt v.getFrameBuffer (v.getVideoOffset x y) := if_pos h

/-- A pixel of a buffer with new contents. -/
theorem readPixel_setFrameBuffer {v : Video} {x y : Nat} (h : v.withinScreenBounds x y)
    (m : Bytes) : (v.setFrameBuffer m).readPixel x y = pixelAt m (v.getVideoOffset x y) := by
  rw [readPixel_of_within ((v.withinScreenBounds_setFrameBuffer m x y).2 h),
    getFrameBuffer_setFrameBuffer, getVideoOffset_setFrameBuffer]

/-- **`putPixel` is a block of three bytes**, each of them blended with the one below. -/
theorem putPixel_of_within {v : Video} {x y : Nat} (h : v.withinScreenBounds x y)
    (hexColor : UInt32) : v.putPixel hexColor x y =
      v.setFrameBuffer (blit v.getFrameBuffer (v.getVideoOffset x y) 3 fun k ↦
        blendChannel (alphaOf hexColor) (channel hexColor k)
          (v.getFrameBuffer (v.getVideoOffset x y + k))) := by
  unfold putPixel
  rw [if_pos h, blendPixel, if_pos h]
  refine congrArg v.setFrameBuffer ((storePixel_eq_blit _ _ _).trans (blit_congr fun k hk ↦ ?_))
  rw [channel_alphaBlend _ _ hk, readPixel_of_within h, channel_pixelAt hk]

end Buffers

end Video

end BareBones.Drivers
