import BareBones.Drivers.Video
import Mathlib.Tactic.Linarith

/-!
# Where the video driver finds its pixels

`putPixel` and `readPixel` ask `getVideoOffset` for the place of a pixel, which takes the bytes
of a pixel and of a row from the mode.  `setBackground` and `renderAux` compute the places
themselves, as if a pixel always had three bytes and as if the rows followed each other without
a gap.

**Key results**:
- `setBackground_iff`: on a buffer, `setBackground` fills the pixels that `readPixel` reads
  exactly when the buffer is `Packed`.  Otherwise the red byte of the last pixel lies behind
  everything that is filled.
- `renderAux_iff`: the same for `renderAux`, which also takes the row of the auxiliary buffer
  modulo `2 ^ 32`.
- `routines_agree_iff`: both together, by the geometry alone, for every mode of 24 or 32 bits.
-/

namespace BareBones.Drivers

open Lib.Rows

namespace Video

/-! ## Geometry -/

/-- The pixels of three bytes, row after row, are where the pixels of a buffer are. -/
def Packed (width height pixelBytes rowBytes : Nat) : Prop :=
  width = 0 ∨ height = 0 ∨ (pixelBytes = 3 ∨ width = 1) ∧ (rowBytes = width * 3 ∨ height = 1)

instance (width height pixelBytes rowBytes : Nat) :
    Decidable (Packed width height pixelBytes rowBytes) :=
  inferInstanceAs (Decidable (_ ∨ _))

section Geometry

variable {width height pixelBytes rowBytes x y k : Nat}

theorem Packed.offset (h : Packed width height pixelBytes rowBytes) (hx : x < width)
    (hy : y < height) : x * pixelBytes + y * rowBytes = (y * width + x) * 3 := by
  have hgap : (y * width + x) * 3 = x * 3 + y * (width * 3) := by ring
  rcases h with h | h | ⟨hpixel, hrow⟩
  · omega
  · omega
  have hcol : x * pixelBytes = x * 3 := by
    rcases hpixel with rfl | hone
    · rfl
    · obtain rfl : x = 0 := by omega
      rw [Nat.zero_mul, Nat.zero_mul]
  have hline : y * rowBytes = y * (width * 3) := by
    rcases hrow with rfl | hone
    · rfl
    · obtain rfl : y = 0 := by omega
      rw [Nat.zero_mul, Nat.zero_mul]
  rw [hcol, hline, hgap]

/-- In any other geometry, some rows of a rectangle of pixels end too late. -/
theorem beyond (hpixel : 3 ≤ pixelBytes) (hrow : width * 3 ≤ rowBytes) {columns rows : Nat}
    (hcolumns : 0 < columns) (hrows : 0 < rows)
    (h : pixelBytes ≠ 3 ∧ columns ≠ 1 ∨ rowBytes ≠ width * 3 ∧ rows ≠ 1) :
    (rows - 1) * (width * 3) + columns * 3 ≤
      (columns - 1) * pixelBytes + (rows - 1) * rowBytes + 2 := by
  obtain ⟨c, rfl⟩ := Nat.exists_eq_succ_of_ne_zero (Nat.ne_of_gt hcolumns)
  obtain ⟨r, rfl⟩ := Nat.exists_eq_succ_of_ne_zero (Nat.ne_of_gt hrows)
  simp only [Nat.succ_eq_add_one, Nat.add_sub_cancel, Nat.add_mul, Nat.one_mul]
  have hc : c * 3 ≤ c * pixelBytes := Nat.mul_le_mul_left c hpixel
  have hr : r * (width * 3) ≤ r * rowBytes := Nat.mul_le_mul_left r hrow
  rcases h with ⟨hne, hc₁⟩ | ⟨hne, hr₁⟩
  · have hmore : c * 4 ≤ c * pixelBytes := Nat.mul_le_mul_left c (by omega)
    omega
  · have hmore : r * (width * 3 + 1) ≤ r * rowBytes := Nat.mul_le_mul_left r (by omega)
    rw [Nat.mul_add, Nat.mul_one] at hmore
    omega

end Geometry

/-! ## The background -/

section Background

variable {v : Video} {x y k : Nat}

/-- After `setBackground` all pixels have the colour. -/
def BackgroundAgrees (v : Video) (color : UInt32) : Prop :=
  ∀ x y, v.withinScreenBounds x y → (v.setBackground color).readPixel x y = color % 2 ^ 24

/-- A row of pixels of three bytes. -/
theorem forUpTo_storePixel (m : Bytes) (a width : Nat) (color : UInt32) :
    forUpTo width (fun x m ↦
      storePixel m (a + x * 3) (blueOf color) (greenOf color) (redOf color)) m =
        blit m a (width * 3) (fun i ↦ channel color (i % 3)) := by
  simp only [storePixel_eq_blit]
  rw [forUpTo_rows (f := fun _ _ ↦ channel color) le_rfl (fun _ _ _ _ _ _ ↦ rfl), rect_eq_blit]

/-- **`setBackground` fills one block**, as long as the pixels of three bytes are. -/
theorem setBackground_eq (v : Video) (color : UInt32) : v.setBackground color =
    v.setFrameBuffer (blit v.getFrameBuffer 0
      (v.getScreenHeight.toNat * (v.getScreenWidth.toNat * 3))
      fun i ↦ channel color (i % (v.getScreenWidth.toNat * 3) % 3)) := by
  have hrow : ∀ y m, y < v.getScreenHeight.toNat → forUpTo v.getScreenWidth.toNat (fun x m ↦
      storePixel m ((y * v.getScreenWidth.toNat + x) * 3) (blueOf color) (greenOf color)
        (redOf color)) m = blit m (0 + y * (v.getScreenWidth.toNat * 3))
          (v.getScreenWidth.toNat * 3) (fun i ↦ channel color (i % 3)) := by
    intro y m _
    rw [← forUpTo_storePixel]
    refine forUpTo_congr fun x m _ ↦ ?_
    congr 1
    ring
  unfold setBackground
  simp only [forUpTo_congr hrow]
  rw [forUpTo_rows (f := fun _ _ i ↦ channel color (i % 3)) le_rfl (fun _ _ _ _ _ _ ↦ rfl),
    rect_eq_blit]

/-- The byte of a pixel, if the pixels have three bytes. -/
theorem setBackground_byte (color : UInt32) (h : v.withinScreenBounds x y) (hk : k < 3) :
    (v.setBackground color).getFrameBuffer ((y * v.getScreenWidth.toNat + x) * 3 + k) =
      channel color k := by
  obtain ⟨hx, hy⟩ := h
  have hcol : (x * 3 + k) < v.getScreenWidth.toNat * 3 := by omega
  have hline : (y + 1) * (v.getScreenWidth.toNat * 3) ≤
      v.getScreenHeight.toNat * (v.getScreenWidth.toNat * 3) := Nat.mul_le_mul_right _ hy
  have hplace : (y * v.getScreenWidth.toNat + x) * 3 + k =
      0 + ((x * 3 + k) + v.getScreenWidth.toNat * 3 * y) := by ring
  rw [Nat.add_mul, Nat.mul_comm y] at hline
  rw [setBackground_eq, getFrameBuffer_setFrameBuffer, hplace, blit_at (by omega),
    Nat.add_mul_mod_self_left, Nat.mod_eq_of_lt hcol, Nat.mul_add_mod_of_lt hk]

theorem BackgroundAgrees.of_packed (h : Packed v.getScreenWidth.toNat v.getScreenHeight.toNat
    v.pixelBytes v.rowBytes) (color : UInt32) : v.BackgroundAgrees color := by
  intro x y hin
  have hplace := getVideoOffset_eq v x y
  rw [h.offset hin.1 hin.2] at hplace
  rw [setBackground_eq, readPixel_setFrameBuffer hin, pixelAt_eq_iff, hplace]
  intro k hk
  have hbyte := setBackground_byte color hin hk
  rwa [setBackground_eq, getFrameBuffer_setFrameBuffer] at hbyte

/-- The last pixel of a buffer that is not packed keeps its red byte. -/
theorem not_backgroundAgrees (hpixel : 3 ≤ v.pixelBytes)
    (hrow : v.getScreenWidth.toNat * 3 ≤ v.rowBytes) (h : ¬ Packed v.getScreenWidth.toNat
      v.getScreenHeight.toNat v.pixelBytes v.rowBytes) :
    ¬ (v.setFrameBuffer fun _ ↦ 0).BackgroundAgrees 0xFF0000 := by
  simp only [Packed, not_or, not_and_or] at h
  obtain ⟨hwidth, hheight, hgap⟩ := h
  have hbeyond := beyond hpixel hrow (Nat.pos_of_ne_zero hwidth) (Nat.pos_of_ne_zero hheight) hgap
  have hin : v.withinScreenBounds (v.getScreenWidth.toNat - 1) (v.getScreenHeight.toNat - 1) :=
    ⟨by omega, by omega⟩
  have hfilled : v.getScreenHeight.toNat * (v.getScreenWidth.toNat * 3) =
      (v.getScreenHeight.toNat - 1) * (v.getScreenWidth.toNat * 3) +
        v.getScreenWidth.toNat * 3 := by
    rw [← Nat.succ_mul, Nat.succ_eq_add_one, Nat.sub_add_cancel (Nat.pos_of_ne_zero hheight)]
  intro hagrees
  have hlast := hagrees _ _ ((v.withinScreenBounds_setFrameBuffer _ _ _).2 hin)
  rw [setBackground_eq, setFrameBuffer_setFrameBuffer, readPixel_setFrameBuffer hin,
    pixelAt_eq_iff, getVideoOffset_eq] at hlast
  have hred := hlast 2 (by decide)
  rw [getFrameBuffer_setFrameBuffer, getScreenWidth_setFrameBuffer,
    getScreenHeight_setFrameBuffer, blit_other (by omega)] at hred
  exact absurd hred (by decide)

/-- **`setBackground` fills the pixels that `readPixel` reads exactly when the buffer is
packed.** -/
theorem setBackground_iff (v : Video) (hpixel : 3 ≤ v.pixelBytes)
    (hrow : v.getScreenWidth.toNat * 3 ≤ v.rowBytes) :
    (∀ m color, (v.setFrameBuffer m).BackgroundAgrees color) ↔
      Packed v.getScreenWidth.toNat v.getScreenHeight.toNat v.pixelBytes v.rowBytes := by
  constructor
  · intro hagrees
    by_contra hnot
    exact not_backgroundAgrees hpixel hrow hnot (hagrees _ _)
  · intro hpacked m color
    refine .of_packed ?_ color
    rwa [getScreenWidth_setFrameBuffer, getScreenHeight_setFrameBuffer, pixelBytes_setFrameBuffer,
      rowBytes_setFrameBuffer]

end Background

/-! ## The auxiliary buffer -/

/-- The driver with the framebuffer alone. -/
def start (mode : VbeModeInfo) (framebuffer : Bytes) : Video := ⟨mode, framebuffer, none, 0, 0⟩

/-- What `renderAux` copies are the pixels of both buffers. -/
def Copied (mode : VbeModeInfo) (auxBuffWidth auxBuffHeight : UInt32) : Prop :=
  let copyWidth := min auxBuffWidth.toNat mode.width.toNat
  let copyHeight := min auxBuffHeight.toNat mode.height.toNat
  copyWidth = 0 ∨ copyHeight = 0 ∨ (mode.bpp.toNat / 8 = 3 ∨ copyWidth = 1) ∧
    (mode.pitch.toNat = mode.width.toNat * 3 ∧ auxBuffWidth.toNat * 3 < 2 ^ 32 ∨ copyHeight = 1)

instance (mode : VbeModeInfo) (auxBuffWidth auxBuffHeight : UInt32) :
    Decidable (Copied mode auxBuffWidth auxBuffHeight) :=
  inferInstanceAs (Decidable (_ ∨ _))

/-- Once it has been rendered and taken away, the pixels of the auxiliary buffer are those of the
screen where it has any, and the others are as they were. -/
def RenderAgrees (v : Video) : Prop :=
  ∀ x y, (v.setAuxFramebuffer none 0 0).withinScreenBounds x y →
    (v.renderAux.setAuxFramebuffer none 0 0).readPixel x y =
      if x < v.auxBuffWidth.toNat ∧ y < v.auxBuffHeight.toNat then
        pixelAt v.getFrameBuffer (v.getVideoOffset x y)
      else (v.setAuxFramebuffer none 0 0).readPixel x y

section Render

variable {mode : VbeModeInfo} {framebuffer buffer : Bytes} {aw ah : UInt32} {x y : Nat}

/-- The chunks and the remainder are a block. -/
theorem copyRow_eq (dst : Bytes) (fbRow : Nat) (src : Bytes) (auxRow n : Nat) :
    copyRow dst fbRow src auxRow n = blit dst fbRow n (fun i ↦ src (auxRow + i)) := by
  have hchunks : forUpTo (n / 8) (fun i m ↦
      blit m (fbRow + i * 8) 8 fun k ↦ src (auxRow + i * 8 + k)) dst =
        blit dst fbRow (n / 8 * 8) (fun i ↦ src (auxRow + i)) := by
    rw [forUpTo_rows (f := fun i _ k ↦ src (auxRow + i * 8 + k)) le_rfl (fun _ _ _ _ _ _ ↦ rfl),
      rect_eq_blit]
    refine blit_congr fun i _ ↦ congrArg src ?_
    omega
  have hremainder : ∀ m, forUpTo (n % 8) (fun i m ↦
      Function.update m (fbRow + n / 8 * 8 + i) (src (auxRow + n / 8 * 8 + i))) m =
        blit m (fbRow + n / 8 * 8) (n % 8) (fun i ↦ src (auxRow + n / 8 * 8 + i)) := by
    intro m
    have hstep : ∀ i m, i < n % 8 → Function.update m (fbRow + n / 8 * 8 + i)
        (src (auxRow + n / 8 * 8 + i)) = blit m (fbRow + n / 8 * 8 + i * 1) 1
          fun _ ↦ src (auxRow + n / 8 * 8 + i) := by
      intro i m _
      rw [update_eq_blit, Nat.mul_one]
    rw [forUpTo_congr hstep, forUpTo_rows (f := fun i _ _ ↦ src (auxRow + n / 8 * 8 + i)) le_rfl
      (fun _ _ _ _ _ _ ↦ rfl), rect_eq_blit, Nat.mul_one]
    refine blit_congr fun i _ ↦ ?_
    rw [Nat.div_one]
  simp only [copyRow, hchunks, hremainder]
  rw [blit_append, Nat.div_add_mod']
  refine blit_congr fun i hi ↦ ?_
  split
  · rfl
  · refine congrArg src ?_
    omega

/-- The framebuffer once the auxiliary buffer has been rendered. -/
def rendered (mode : VbeModeInfo) (framebuffer buffer : Bytes) (aw ah : UInt32) : Bytes :=
  rect framebuffer 0 (mode.width.toNat * 3) (min aw.toNat mode.width.toNat * 3)
    (min ah.toNat mode.height.toNat) fun y i ↦ buffer (y * (aw.toNat * 3 % 2 ^ 32) + i)

/-- **`renderAux` writes a rectangle**. -/
theorem renderAux_eq : ((start mode framebuffer).setAuxFramebuffer (some buffer) aw ah).renderAux =
    (start mode (rendered mode framebuffer buffer aw ah)).setAuxFramebuffer (some buffer) aw
      ah := by
  have hstride : (aw * 3).toNat = aw.toNat * 3 % 2 ^ 32 := UInt32.toNat_mul _ _
  have hrows : forUpTo (min ah.toNat mode.height.toNat) (fun y m ↦
      blit m (0 + y * (mode.width.toNat * 3)) (min aw.toNat mode.width.toNat * 3) fun i ↦
        buffer (y * (aw.toNat * 3 % 2 ^ 32) + i)) framebuffer = _ :=
    forUpTo_rows (Nat.mul_le_mul_right 3 (Nat.min_le_right _ _)) (fun _ _ _ _ _ _ ↦ rfl)
  simp only [Nat.zero_add] at hrows
  simp only [renderAux, setAuxFramebuffer, start, Option.isNone_some, Bool.false_eq_true, if_false,
    copyRow_eq, hstride, hrows, rendered]

theorem readPixel_start (hx : x < mode.width.toNat) (hy : y < mode.height.toNat) :
    (start mode framebuffer).readPixel x y =
      pixelAt framebuffer (x * (mode.bpp.toNat / 8) + y * mode.pitch.toNat) := if_pos ⟨hx, hy⟩

theorem renderAgrees_iff :
    ((start mode framebuffer).setAuxFramebuffer (some buffer) aw ah).RenderAgrees ↔
      ∀ x y, x < mode.width.toNat → y < mode.height.toNat →
        pixelAt (rendered mode framebuffer buffer aw ah)
            (x * (mode.bpp.toNat / 8) + y * mode.pitch.toNat) =
          if x < aw.toNat ∧ y < ah.toNat then pixelAt buffer ((x + y * aw.toNat) * 3)
          else pixelAt framebuffer (x * (mode.bpp.toNat / 8) + y * mode.pitch.toNat) := by
  rw [RenderAgrees, renderAux_eq]
  show (∀ x y, x < mode.width.toNat ∧ y < mode.height.toNat →
    (start mode (rendered mode framebuffer buffer aw ah)).readPixel x y =
      if x < aw.toNat ∧ y < ah.toNat then pixelAt buffer ((x + y * aw.toNat) * 3)
      else (start mode framebuffer).readPixel x y) ↔ _
  constructor
  · intro h x y hx hy
    have hafter := h x y ⟨hx, hy⟩
    rwa [readPixel_start hx hy, readPixel_start hx hy] at hafter
  · rintro h x y ⟨hx, hy⟩
    rw [readPixel_start hx hy, readPixel_start hx hy]
    exact h x y hx hy

/-- The same, a byte at a time. -/
theorem renderAgrees_iff_bytes :
    ((start mode framebuffer).setAuxFramebuffer (some buffer) aw ah).RenderAgrees ↔
      ∀ x y, x < mode.width.toNat → y < mode.height.toNat → ∀ k < 3,
        rendered mode framebuffer buffer aw ah
            (x * (mode.bpp.toNat / 8) + y * mode.pitch.toNat + k) =
          if x < aw.toNat ∧ y < ah.toNat then buffer ((x + y * aw.toNat) * 3 + k)
          else framebuffer (x * (mode.bpp.toNat / 8) + y * mode.pitch.toNat + k) := by
  rw [renderAgrees_iff]
  refine forall_congr' fun x ↦ forall_congr' fun y ↦ forall_congr' fun _ ↦ forall_congr' fun _ ↦ ?_
  split
  · exact pixelAt_eq_pixelAt_iff
  · exact pixelAt_eq_pixelAt_iff

theorem RenderAgrees.of_copied (hpixel : 3 ≤ mode.bpp.toNat / 8)
    (hrow : mode.width.toNat * (mode.bpp.toNat / 8) ≤ mode.pitch.toNat) (h : Copied mode aw ah) :
    ((start mode framebuffer).setAuxFramebuffer (some buffer) aw ah).RenderAgrees := by
  rw [renderAgrees_iff_bytes]
  intro x y hx hy k hk
  have hfit : min aw.toNat mode.width.toNat * 3 ≤ mode.width.toNat * 3 :=
    Nat.mul_le_mul_right 3 (Nat.min_le_right _ _)
  unfold rendered
  rcases h with hnone | hnone | ⟨hcol, ⟨hpitch, hstride⟩ | hone⟩
  · rw [rect, if_neg (by rintro ⟨-, -, h⟩; omega), if_neg (by omega)]
  · rw [hnone, rect_zero, if_neg (by omega)]
  · -- rows without a gap have no room for a fourth byte
    have hthree : mode.bpp.toNat / 8 = 3 := by
      rw [hpitch] at hrow
      have := Nat.le_of_mul_le_mul_left hrow (by omega)
      omega
    have hplace : x * (mode.bpp.toNat / 8) + y * mode.pitch.toNat + k =
        0 + y * (mode.width.toNat * 3) + (x * 3 + k) := by
      rw [hthree, hpitch]
      omega
    rw [hplace, rect_apply (by omega), Nat.mod_eq_of_lt hstride]
    by_cases hin : x < aw.toNat ∧ y < ah.toNat
    · rw [if_pos (by omega), if_pos hin]
      congr 1
      ring
    · rw [if_neg (by omega), if_neg hin]
  · rw [hone, rect_one hfit]
    by_cases hin : x < aw.toNat ∧ y < ah.toNat
    · obtain rfl : y = 0 := by omega
      have hplace : x * (mode.bpp.toNat / 8) + 0 * mode.pitch.toNat + k = 0 + (x * 3 + k) := by
        rcases hcol with hthree | hcol
        · rw [hthree]
          omega
        · obtain rfl : x = 0 := by omega
          omega
      rw [hplace, blit_at (by omega), if_pos hin]
      congr 1
      omega
    · -- the pixels to the right and below come later
      have hcols : x * 3 ≤ x * (mode.bpp.toNat / 8) := Nat.mul_le_mul_left x hpixel
      have hwide : mode.width.toNat * 3 ≤ mode.width.toNat * (mode.bpp.toNat / 8) :=
        Nat.mul_le_mul_left _ hpixel
      have hrows : 1 ≤ y → mode.pitch.toNat ≤ y * mode.pitch.toNat := Nat.le_mul_of_pos_left _
      rw [blit_other (by omega), if_neg hin]

/-- Some pixels of other geometries are not where they have been copied to. -/
theorem not_renderAgrees (hpixel : 3 ≤ mode.bpp.toNat / 8)
    (hrow : mode.width.toNat * (mode.bpp.toNat / 8) ≤ mode.pitch.toNat)
    (h : ¬ Copied mode aw ah) : ∃ buffer,
      ¬ ((start mode fun _ ↦ 0).setAuxFramebuffer (some buffer) aw ah).RenderAgrees := by
  simp only [Copied, not_or, not_and_or] at h
  obtain ⟨hwidth, hheight, hgap⟩ := h
  have hwide : mode.width.toNat * 3 ≤ mode.width.toNat * (mode.bpp.toNat / 8) :=
    Nat.mul_le_mul_left _ hpixel
  by_cases hlate : mode.bpp.toNat / 8 ≠ 3 ∧ min aw.toNat mode.width.toNat ≠ 1 ∨
      mode.pitch.toNat ≠ mode.width.toNat * 3 ∧ min ah.toNat mode.height.toNat ≠ 1
  · -- the last pixel that is to be copied ends behind the rectangle
    have hbeyond := beyond hpixel (hwide.trans hrow) (Nat.pos_of_ne_zero hwidth)
      (Nat.pos_of_ne_zero hheight) hlate
    refine ⟨fun _ ↦ 0xFF, fun hagrees ↦ ?_⟩
    have hred := renderAgrees_iff_bytes.1 hagrees (min aw.toNat mode.width.toNat - 1)
      (min ah.toNat mode.height.toNat - 1) (by omega) (by omega) 2 (by decide)
    rw [rendered, rect_past (Nat.pos_of_ne_zero hheight) (by omega), if_pos (by omega)] at hred
    exact absurd hred (by decide)
  · -- the second row of the auxiliary buffer is taken from elsewhere
    have hstride : 2 ^ 32 ≤ aw.toNat * 3 := by omega
    have hpitch : mode.pitch.toNat = mode.width.toNat * 3 := by omega
    refine ⟨fun j ↦ if j = aw.toNat * 3 then 0xFF else 0, fun hagrees ↦ ?_⟩
    have hblue := renderAgrees_iff_bytes.1 hagrees 0 1 (by omega) (by omega) 0 (by decide)
    have hplace : 0 * (mode.bpp.toNat / 8) + 1 * mode.pitch.toNat + 0 =
        0 + 1 * (mode.width.toNat * 3) + 0 := by omega
    rw [hplace, rendered, rect_apply (by omega), if_pos (by omega), if_neg (by omega),
      if_pos (by omega), if_pos (by omega)] at hblue
    exact absurd hblue (by decide)

/-- **`renderAux` copies the pixels exactly in these geometries.** -/
theorem renderAux_iff (hpixel : 3 ≤ mode.bpp.toNat / 8)
    (hrow : mode.width.toNat * (mode.bpp.toNat / 8) ≤ mode.pitch.toNat) :
    (∀ framebuffer buffer,
      ((start mode framebuffer).setAuxFramebuffer (some buffer) aw ah).RenderAgrees) ↔
        Copied mode aw ah := by
  constructor
  · intro hagrees
    by_contra hnot
    obtain ⟨buffer, hbuffer⟩ := not_renderAgrees hpixel hrow hnot
    exact hbuffer (hagrees _ buffer)
  · intro hcopied framebuffer buffer
    exact .of_copied hpixel hrow hcopied

end Render

/-! ## Both -/

/-- On the framebuffer. -/
theorem setBackground_iff_screen {mode : VbeModeInfo} (hpixel : 3 ≤ mode.bpp.toNat / 8)
    (hrow : mode.width.toNat * (mode.bpp.toNat / 8) ≤ mode.pitch.toNat) :
    (∀ framebuffer color, (start mode framebuffer).BackgroundAgrees color) ↔
      Packed mode.width.toNat mode.height.toNat (mode.bpp.toNat / 8) mode.pitch.toNat :=
  setBackground_iff (start mode fun _ ↦ 0) hpixel
    ((Nat.mul_le_mul_left mode.width.toNat hpixel).trans hrow)

/-- On the auxiliary buffer, the size of which is cut to 16 bits. -/
theorem setBackground_iff_aux (mode : VbeModeInfo) (framebuffer : Bytes) (aw ah : UInt32) :
    (∀ buffer color, ((start mode framebuffer).setAuxFramebuffer (some buffer) aw
      ah).BackgroundAgrees color) ↔
        Packed aw.toUInt16.toNat ah.toUInt16.toNat 3 (aw.toNat * 3) := by
  refine setBackground_iff ((start mode framebuffer).setAuxFramebuffer (some fun _ ↦ 0) aw ah)
    le_rfl (Nat.mul_le_mul_right 3 ?_)
  show aw.toUInt16.toNat ≤ aw.toNat
  rw [UInt32.toNat_toUInt16]
  exact Nat.mod_le _ _

/-- **The routines for whole screens and `readPixel` have the same pixels exactly when** the
framebuffer is packed, the auxiliary buffer, as far as the driver knows its size, is packed, and
what `renderAux` copies are pixels of both. -/
theorem routines_agree_iff (mode : VbeModeInfo) (hbpp : mode.bpp = 24 ∨ mode.bpp = 32)
    (hpitch : mode.width.toNat * mode.bpp.toNat / 8 ≤ mode.pitch.toNat) (aw ah : UInt32) :
    (∀ framebuffer buffer color, (start mode framebuffer).BackgroundAgrees color ∧
      ((start mode framebuffer).setAuxFramebuffer (some buffer) aw ah).BackgroundAgrees color ∧
      ((start mode framebuffer).setAuxFramebuffer (some buffer) aw ah).RenderAgrees) ↔
    Packed mode.width.toNat mode.height.toNat (mode.bpp.toNat / 8) mode.pitch.toNat ∧
      Packed aw.toUInt16.toNat ah.toUInt16.toNat 3 (aw.toNat * 3) ∧ Copied mode aw ah := by
  have hbits : mode.bpp.toNat = 24 ∨ mode.bpp.toNat = 32 :=
    hbpp.imp (congrArg UInt8.toNat) (congrArg UInt8.toNat)
  have hpixel : 3 ≤ mode.bpp.toNat / 8 := by omega
  have hrow : mode.width.toNat * (mode.bpp.toNat / 8) ≤ mode.pitch.toNat := by
    rcases hbits with h | h
    · rw [h] at hpitch ⊢
      omega
    · rw [h] at hpitch ⊢
      omega
  have hscreen := setBackground_iff_screen hpixel hrow
  have haux := setBackground_iff_aux mode (fun _ ↦ 0) aw ah
  have hrender : _ ↔ Copied mode aw ah := renderAux_iff hpixel hrow
  constructor
  · intro h
    refine ⟨hscreen.1 ?_, haux.1 ?_, hrender.1 ?_⟩
    · intro framebuffer color
      exact (h framebuffer (fun _ ↦ 0) color).1
    · intro buffer color
      exact (h _ buffer color).2.1
    · intro framebuffer buffer
      exact (h framebuffer buffer 0).2.2
  · rintro ⟨hpacked, hpacked', hcopied⟩ framebuffer buffer color
    exact ⟨hscreen.2 hpacked framebuffer color,
      (setBackground_iff_aux mode framebuffer aw ah).2 hpacked' buffer color,
      hrender.2 hcopied framebuffer buffer⟩

/-- A mode of 24 bits without gaps, and a smaller auxiliary buffer. -/
theorem routines_agree_1024 : (start ⟨3072, 1024, 768, 24⟩ fun _ ↦ 0).BackgroundAgrees 0xFF0000 ∧
    ((start ⟨3072, 1024, 768, 24⟩ fun _ ↦ 0).setAuxFramebuffer (some fun _ ↦ 0xFF) 640
      480).BackgroundAgrees 0xFF0000 ∧
    ((start ⟨3072, 1024, 768, 24⟩ fun _ ↦ 0).setAuxFramebuffer (some fun _ ↦ 0xFF) 640
      480).RenderAgrees :=
  (routines_agree_iff ⟨3072, 1024, 768, 24⟩ (.inl rfl) (by decide) 640 480).2 (by decide)
    (fun _ ↦ 0) (fun _ ↦ 0xFF) 0xFF0000

/-- With 32 bits a pixel, a red background leaves the last pixel of a black screen as it was. -/
theorem background_disagrees_32 :
    ¬ (start ⟨4096, 1024, 768, 32⟩ fun _ ↦ 0).BackgroundAgrees 0xFF0000 :=
  not_backgroundAgrees (v := start ⟨4096, 1024, 768, 32⟩ fun _ ↦ 0) (by decide) (by decide)
    (by decide)

end Video

end BareBones.Drivers
