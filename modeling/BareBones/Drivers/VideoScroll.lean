import BareBones.Drivers.VideoGeometry

/-!
# Scrolling

`scrollUp` has two paths.  The framebuffer is moved byte by byte, in place and row by row, and
its lower rows are filled with the bytes of the colour.  The auxiliary buffer is moved pixel by
pixel, through `readPixel` and `putPixel`, and `putPixel` blends: the pixels that are moved have
no alpha and are put as they are, but the colour of the lower rows may have one.

Both are the same two rectangles of bytes (`scrolledBytes`), with another byte in the second.

**Key results**:
- `scrollUp_screen`, `scrollUp_aux`: what the two paths leave in the buffer.
- `scrollUp_agree_iff`: they draw the same picture **exactly when** the colour is opaque, or is
  drawn over pixels that it does not show on.
-/

namespace BareBones.Drivers

open Lib.Rows

namespace Video

/-! ## The two rectangles -/

/-- A buffer of `w` times `h` pixels of three bytes, scrolled: each byte of the lower rows is
given by its place in the pixel and by what was there. -/
def scrolledBytes (m : Bytes) (pitch w h pixelRows : Nat) (fill : Nat → UInt8 → UInt8) : Bytes :=
  let up := rect m 0 pitch (w * 3) (h - pixelRows) fun y i ↦ m ((y + pixelRows) * pitch + i)
  rect up ((h - pixelRows) * pitch) pitch (w * 3) pixelRows fun y i ↦
    fill (i % 3) (up ((h - pixelRows) * pitch + y * pitch + i))

section Bytes

variable {m : Bytes} {pitch w h pixelRows x y k n r : Nat} {g : Nat → UInt8 → UInt8}

/-- **The byte of a pixel** of the scrolled buffer. -/
theorem scrolledBytes_apply (hpitch : w * 3 ≤ pitch) (hrows : pixelRows ≤ h) (hx : x < w)
    (hy : y < h) (hk : k < 3) : scrolledBytes m pitch w h pixelRows g (x * 3 + y * pitch + k) =
      if y + pixelRows < h then m (x * 3 + (y + pixelRows) * pitch + k)
      else g k (m (x * 3 + y * pitch + k)) := by
  have hcol : x * 3 + k < pitch := by omega
  have hplace : x * 3 + y * pitch + k = 0 + y * pitch + (x * 3 + k) := by omega
  unfold scrolledBytes
  split
  next hup =>
    have hbelow : (y + 1) * pitch ≤ (h - pixelRows) * pitch := Nat.mul_le_mul_right pitch (by omega)
    rw [Nat.add_mul] at hbelow
    rw [rect_lt (by omega), hplace, rect_apply hcol, if_pos (by omega)]
    congr 1
    omega
  next hdown =>
    obtain ⟨i, hi⟩ := Nat.exists_eq_add_of_le (show h - pixelRows ≤ y by omega)
    have hbottom : x * 3 + y * pitch + k =
        (h - pixelRows) * pitch + i * pitch + (x * 3 + k) := by
      rw [hi, Nat.add_mul]
      omega
    have hthird : (x * 3 + k) % 3 = k := by omega
    rw [hbottom, rect_apply hcol, if_pos (by omega), hthird, ← hbottom, hplace, rect_apply hcol,
      if_neg (by omega)]

/-- Rows that are moved up. -/
theorem forUpTo_moved (hr : r ≤ pitch) : forUpTo n (fun y m ↦
    blit m (y * pitch) r fun i ↦ m ((y + pixelRows) * pitch + i)) m =
      rect m 0 pitch r n fun y i ↦ m ((y + pixelRows) * pitch + i) := by
  have hrows := forUpTo_rows (a := 0) (n := n) (m := m)
    (f := fun y m i ↦ m ((y + pixelRows) * pitch + i)) hr
  simp only [Nat.zero_add] at hrows
  refine hrows ?_
  intro y _ m' hm' i _
  refine hm' _ ?_
  rw [Nat.add_mul]
  omega

/-- Rows that are filled. -/
theorem forUpTo_filled {a : Nat} (hr : r ≤ pitch) : forUpTo n (fun y m ↦
    blit m (a + y * pitch) r fun i ↦ g (i % 3) (m (a + y * pitch + i))) m =
      rect m a pitch r n fun y i ↦ g (i % 3) (m (a + y * pitch + i)) := by
  refine forUpTo_rows (f := fun y m i ↦ g (i % 3) (m (a + y * pitch + i))) hr ?_
  intro y _ m' hm' i _
  exact congrArg (g (i % 3)) (hm' _ (by omega))

end Bytes

/-! ## The framebuffer -/

section Paths

variable {mode : VbeModeInfo} {framebuffer buffer m : Bytes} {pixelRows : Nat} {v : Video}

/-- **The framebuffer, scrolled directly.** -/
theorem scrollUp_screen (hbpp : mode.bpp.toNat / 8 = 3)
    (hpitch : mode.width.toNat * 3 ≤ mode.pitch.toNat) (hpos : 0 < pixelRows)
    (hrows : pixelRows < mode.height.toNat) (fillColor : UInt32) :
    (start mode framebuffer).scrollUp pixelRows fillColor =
      start mode (scrolledBytes framebuffer mode.pitch.toNat mode.width.toNat mode.height.toNat
        pixelRows fun k _ ↦ channel fillColor k) := by
  have hwidth : (start mode framebuffer).getScreenWidth.toNat = mode.width.toNat := rfl
  have hheight : (start mode framebuffer).getScreenHeight.toNat = mode.height.toNat := rfl
  have hup : ∀ dst (m : Bytes), dst < mode.height.toNat - pixelRows →
      forUpTo (mode.width.toNat * 3) (fun i m ↦ Function.update m (dst * mode.pitch.toNat + i)
        (m ((dst + pixelRows) * mode.pitch.toNat + i))) m =
      blit m (dst * mode.pitch.toNat) (mode.width.toNat * 3) fun i ↦
        m ((dst + pixelRows) * mode.pitch.toNat + i) := by
    intro dst m _
    exact forUpTo_copy (Nat.mul_le_mul_right _ (Nat.le_add_right dst pixelRows))
  have hdown : ∀ i (m : Bytes), i < pixelRows →
      forUpTo mode.width.toNat (fun x m ↦ storePixel m
        ((mode.height.toNat - pixelRows + i) * mode.pitch.toNat + x * 3)
        (blueOf fillColor) (greenOf fillColor) (redOf fillColor)) m =
      blit m ((mode.height.toNat - pixelRows) * mode.pitch.toNat + i * mode.pitch.toNat)
        (mode.width.toNat * 3) fun i ↦ channel fillColor (i % 3) := by
    intro i m _
    rw [forUpTo_storePixel, Nat.add_mul]
  have hreal : ¬ (start mode framebuffer).auxFramebuffer.isSome := Bool.false_ne_true
  have hmode : (start mode framebuffer).VBE_mode_info = mode := rfl
  unfold scrollUp
  simp only [hwidth, hheight, hmode, hbpp]
  rw [if_neg (by omega), if_neg hreal]
  show start mode (forUpTo pixelRows _ (forUpTo _ _ framebuffer)) = _
  rw [forUpTo_congr hup, forUpTo_congr hdown, forUpTo_moved hpitch]
  exact congrArg (start mode) (forUpTo_filled (g := fun k _ ↦ channel fillColor k) hpitch)

/-! ## The auxiliary buffer -/

/-- The driver with an auxiliary buffer of the size of the screen. -/
def withAux (mode : VbeModeInfo) (framebuffer buffer : Bytes) : Video :=
  (start mode framebuffer).setAuxFramebuffer (some buffer) mode.width.toUInt32 mode.height.toUInt32

theorem withAux_within {x y : Nat} : (withAux mode framebuffer m).withinScreenBounds x y ↔
    x < mode.width.toNat ∧ y < mode.height.toNat := by
  show x < mode.width.toUInt32.toUInt16.toNat ∧ y < mode.height.toUInt32.toUInt16.toNat ↔ _
  rw [UInt16.toUInt16_toUInt32, UInt16.toUInt16_toUInt32]

theorem withAux_offset (x y : Nat) : (withAux mode framebuffer m).getVideoOffset x y =
    y * (mode.width.toNat * 3) + x * 3 := by
  show (x + y * mode.width.toUInt32.toNat) * 3 = _
  rw [UInt16.toNat_toUInt32]
  ring

theorem readPixel_withAux {x y : Nat} (hx : x < mode.width.toNat) (hy : y < mode.height.toNat) :
    (withAux mode framebuffer m).readPixel x y =
      pixelAt m (y * (mode.width.toNat * 3) + x * 3) := by
  rw [readPixel_of_within (withAux_within.2 ⟨hx, hy⟩), withAux_offset]
  rfl

theorem putPixel_withAux {x y : Nat} (hx : x < mode.width.toNat) (hy : y < mode.height.toNat)
    (hexColor : UInt32) : (withAux mode framebuffer m).putPixel hexColor x y =
      withAux mode framebuffer (blit m (y * (mode.width.toNat * 3) + x * 3) 3 fun k ↦
        blendChannel (alphaOf hexColor) (channel hexColor k)
          (m (y * (mode.width.toNat * 3) + x * 3 + k))) := by
  rw [putPixel_of_within (withAux_within.2 ⟨hx, hy⟩), withAux_offset]
  rfl

/-- A pixel that is moved is put as it is. -/
theorem movePixel_withAux {x y y' : Nat} (hx : x < mode.width.toNat) (hy : y < mode.height.toNat)
    (hy' : y' < mode.height.toNat) : (withAux mode framebuffer m).putPixel
      ((withAux mode framebuffer m).readPixel x y') x y =
        withAux mode framebuffer (blit m (y * (mode.width.toNat * 3) + x * 3) 3 fun k ↦
          m (y' * (mode.width.toNat * 3) + x * 3 + k)) := by
  rw [putPixel_withAux hx hy, readPixel_withAux hx hy']
  refine congrArg (withAux mode framebuffer) (blit_congr fun k hk ↦ ?_)
  rw [alphaOf_pixelAt, blendChannel_opaque, channel_pixelAt hk]

/-- **The auxiliary buffer, scrolled pixel by pixel.** -/
theorem scrollUp_aux (hpos : 0 < pixelRows) (hrows : pixelRows < mode.height.toNat)
    (fillColor : UInt32) : (withAux mode framebuffer buffer).scrollUp pixelRows fillColor =
      withAux mode framebuffer (scrolledBytes buffer (mode.width.toNat * 3) mode.width.toNat
        mode.height.toNat pixelRows fun k b ↦
          blendChannel (alphaOf fillColor) (channel fillColor k) b) := by
  have hwidth : (withAux mode framebuffer buffer).getScreenWidth.toNat = mode.width.toNat :=
    congrArg UInt16.toNat (UInt16.toUInt16_toUInt32 mode.width)
  have hheight : (withAux mode framebuffer buffer).getScreenHeight.toNat = mode.height.toNat :=
    congrArg UInt16.toNat (UInt16.toUInt16_toUInt32 mode.height)
  have hup : ∀ y (m : Bytes), y < mode.height.toNat - pixelRows →
      (forUpTo mode.width.toNat (fun x v ↦ v.putPixel (v.readPixel x (y + pixelRows)) x y)
        (withAux mode framebuffer m)) =
      withAux mode framebuffer (blit m (y * (mode.width.toNat * 3)) (mode.width.toNat * 3) fun i ↦
        m ((y + pixelRows) * (mode.width.toNat * 3) + i)) := by
    intro y m hy
    rw [forUpTo_map (fun x m hx ↦ movePixel_withAux hx (by omega) (by omega))]
    refine congrArg (withAux mode framebuffer) ?_
    rw [forUpTo_rows (f := fun x m k ↦ m ((y + pixelRows) * (mode.width.toNat * 3) + x * 3 + k))
      le_rfl, rect_eq_blit]
    · refine blit_congr fun i _ ↦ congrArg m ?_
      omega
    · intro x _ m' hm' k _
      refine hm' _ ?_
      rw [Nat.add_mul]
      omega
  have hdown : ∀ i (m : Bytes), i < pixelRows →
      (forUpTo mode.width.toNat (fun x v ↦
        v.putPixel fillColor x (mode.height.toNat - pixelRows + i)) (withAux mode framebuffer m)) =
      withAux mode framebuffer (blit m
        ((mode.height.toNat - pixelRows) * (mode.width.toNat * 3) + i * (mode.width.toNat * 3))
        (mode.width.toNat * 3) fun j ↦
          blendChannel (alphaOf fillColor) (channel fillColor (j % 3))
            (m ((mode.height.toNat - pixelRows) * (mode.width.toNat * 3) +
              i * (mode.width.toNat * 3) + j))) := by
    intro i m hi
    rw [forUpTo_map (fun x m hx ↦ putPixel_withAux hx (by omega) fillColor)]
    refine congrArg (withAux mode framebuffer) ?_
    rw [forUpTo_rows (f := fun x m k ↦ blendChannel (alphaOf fillColor) (channel fillColor k)
      (m ((mode.height.toNat - pixelRows + i) * (mode.width.toNat * 3) + x * 3 + k))) le_rfl,
      rect_eq_blit, Nat.add_mul]
    · refine blit_congr fun j _ ↦ congrArg (blendChannel _ _) (congrArg m ?_)
      omega
    · intro x _ m' hm' k _
      exact congrArg (blendChannel _ _) (hm' _ (by omega))
  have haux : (withAux mode framebuffer buffer).auxFramebuffer.isSome := rfl
  unfold scrollUp
  simp only [hwidth, hheight]
  rw [if_neg (by omega), if_pos haux, forUpTo_map hup, forUpTo_map hdown, forUpTo_moved le_rfl]
  exact congrArg (withAux mode framebuffer) (forUpTo_filled (g := fun k b ↦
    blendChannel (alphaOf fillColor) (channel fillColor k) b) le_rfl)

/-! ## Pixels -/

variable {x y : Nat} {fillColor : UInt32}

/-- **The framebuffer is scrolled as it should be.** -/
theorem readPixel_scrollUp_screen (hbpp : mode.bpp.toNat / 8 = 3)
    (hpitch : mode.width.toNat * 3 ≤ mode.pitch.toNat) (hpos : 0 < pixelRows)
    (hrows : pixelRows < mode.height.toNat) (hx : x < mode.width.toNat)
    (hy : y < mode.height.toNat) :
    ((start mode framebuffer).scrollUp pixelRows fillColor).readPixel x y =
      if y + pixelRows < mode.height.toNat then
        (start mode framebuffer).readPixel x (y + pixelRows)
      else fillColor % 2 ^ 24 := by
  rw [scrollUp_screen hbpp hpitch hpos hrows, readPixel_start hx hy, hbpp]
  split
  next hup =>
    rw [readPixel_start hx hup, hbpp, pixelAt_eq_pixelAt_iff]
    intro k hk
    rw [scrolledBytes_apply hpitch hrows.le hx hy hk, if_pos hup]
  next hdown =>
    rw [pixelAt_eq_iff]
    intro k hk
    rw [scrolledBytes_apply hpitch hrows.le hx hy hk, if_neg hdown]

/-- The pixels of the auxiliary buffer that are moved. -/
theorem readPixel_scrollUp_aux (hpos : 0 < pixelRows) (hx : x < mode.width.toNat)
    (hy : y + pixelRows < mode.height.toNat) :
    ((withAux mode framebuffer buffer).scrollUp pixelRows fillColor).readPixel x y =
      (withAux mode framebuffer buffer).readPixel x (y + pixelRows) := by
  rw [scrollUp_aux hpos (by omega), readPixel_withAux hx (by omega), readPixel_withAux hx hy,
    pixelAt_eq_pixelAt_iff]
  intro k hk
  rw [Nat.add_comm (y * _), scrolledBytes_apply le_rfl (by omega) hx (by omega) hk, if_pos hy,
    Nat.add_comm (x * 3)]

/-- The pixels of the auxiliary buffer that are filled. -/
theorem readPixel_scrollUp_aux_iff (hpos : 0 < pixelRows) (hrows : pixelRows < mode.height.toNat)
    (hx : x < mode.width.toNat) (hy : y < mode.height.toNat)
    (hdown : mode.height.toNat ≤ y + pixelRows) :
    ((withAux mode framebuffer buffer).scrollUp pixelRows fillColor).readPixel x y =
        fillColor % 2 ^ 24 ↔
      ∀ k < 3, blendChannel (alphaOf fillColor) (channel fillColor k)
        (channel ((withAux mode framebuffer buffer).readPixel x y) k) = channel fillColor k := by
  rw [scrollUp_aux hpos hrows, readPixel_withAux hx hy, pixelAt_eq_iff]
  refine forall_congr' fun k ↦ forall_congr' fun hk ↦ ?_
  rw [Nat.add_comm (y * _), scrolledBytes_apply le_rfl hrows.le hx hy hk, if_neg (by omega),
    readPixel_withAux hx hy, channel_pixelAt hk, Nat.add_comm (x * 3)]

end Paths

/-! ## When the pictures are the same -/

/-- The colour does not show when it is drawn over the other one: in every channel that one is
the same, or so little lighter that the difference is rounded away. -/
def Unseen (fillColor bgColor : UInt32) : Prop :=
  ∀ k < 3, (channel fillColor k).toNat ≤ (channel bgColor k).toNat ∧
    ((channel bgColor k).toNat - (channel fillColor k).toNat) * (255 - (alphaOf fillColor).toNat) <
      255

/-- Both paths draw the picture that is moved up and filled with the colour. -/
def ScrollAgrees (mode : VbeModeInfo) (framebuffer buffer : Bytes) (pixelRows : Nat)
    (fillColor : UInt32) : Prop :=
  ∀ x y, x < mode.width.toNat → y < mode.height.toNat →
    ((start mode framebuffer).scrollUp pixelRows fillColor).readPixel x y =
        ((withAux mode framebuffer buffer).scrollUp pixelRows fillColor).readPixel x y ∧
      ((start mode framebuffer).scrollUp pixelRows fillColor).readPixel x y =
        if y + pixelRows < mode.height.toNat then
          (start mode framebuffer).readPixel x (y + pixelRows)
        else fillColor % 2 ^ 24

/-- **The two paths draw the same picture exactly when** the colour is opaque, or none of the
pixels of the lower rows shows a difference. -/
theorem scrollUp_agree_iff (mode : VbeModeInfo) (hbpp : mode.bpp = 24)
    (hpitch : mode.width.toNat * 3 ≤ mode.pitch.toNat) (framebuffer buffer : Bytes)
    (himage : ∀ x y, x < mode.width.toNat → y < mode.height.toNat →
      (withAux mode framebuffer buffer).readPixel x y = (start mode framebuffer).readPixel x y)
    (pixelRows : Nat) (hpos : 0 < pixelRows) (hrows : pixelRows < mode.height.toNat)
    (fillColor : UInt32) : ScrollAgrees mode framebuffer buffer pixelRows fillColor ↔
      alphaOf fillColor = 0xFF ∨ ∀ x y, x < mode.width.toNat → y < mode.height.toNat →
        mode.height.toNat ≤ y + pixelRows →
          Unseen fillColor ((start mode framebuffer).readPixel x y) := by
  have hthree : mode.bpp.toNat / 8 = 3 := by
    rw [hbpp]
    rfl
  constructor
  · intro hagrees
    refine or_iff_not_imp_left.2 fun halpha x y hx hy hdown k hk ↦ ?_
    obtain ⟨hsame, hpicture⟩ := hagrees x y hx hy
    rw [if_neg (by omega)] at hpicture
    have hfilled := (readPixel_scrollUp_aux_iff hpos hrows hx hy hdown).1
      (hsame.symm.trans hpicture) k hk
    rw [himage x y hx hy] at hfilled
    exact (blendChannel_eq_iff halpha).1 hfilled
  · intro hunseen x y hx hy
    have hpicture : ((start mode framebuffer).scrollUp pixelRows fillColor).readPixel x y = _ :=
      readPixel_scrollUp_screen hthree hpitch hpos hrows hx hy
    refine ⟨?_, hpicture⟩
    rw [hpicture]
    split
    next hup => rw [readPixel_scrollUp_aux hpos hx hup, himage x _ hx hup]
    next hdown =>
      refine ((readPixel_scrollUp_aux_iff hpos hrows hx hy (not_lt.1 hdown)).2 ?_).symm
      intro k hk
      rcases hunseen with hfull | hunseen
      · rw [hfull, blendChannel_opaque]
      · by_cases halpha : alphaOf fillColor = 0xFF
        · rw [halpha, blendChannel_opaque]
        · rw [himage x y hx hy]
          exact (blendChannel_eq_iff halpha).2 (hunseen x y hx hy (not_lt.1 hdown) k hk)

/-- Two rows of a white screen, scrolled by one and filled with opaque black. -/
theorem scrollUp_agree_opaque :
    ScrollAgrees ⟨9, 3, 2, 24⟩ (fun _ ↦ 0xFF) (fun _ ↦ 0xFF) 1 0xFF000000 := by
  refine (scrollUp_agree_iff ⟨9, 3, 2, 24⟩ rfl (by decide) (fun _ ↦ 0xFF) (fun _ ↦ 0xFF) ?_ 1
    (by decide) (by decide) 0xFF000000).2 (.inl (by decide))
  intro x y hx hy
  rw [readPixel_withAux hx hy, readPixel_start hx hy]
  rfl

/-- Half-transparent white over black is grey in the auxiliary buffer and white on the screen. -/
theorem scrollUp_disagrees_translucent :
    (∀ x y, x < 3 → y < 2 → (withAux ⟨9, 3, 2, 24⟩ (fun _ ↦ 0) fun _ ↦ 0).readPixel x y =
      (start ⟨9, 3, 2, 24⟩ fun _ ↦ 0).readPixel x y) ∧
    ¬ ScrollAgrees ⟨9, 3, 2, 24⟩ (fun _ ↦ 0) (fun _ ↦ 0) 1 0x80FFFFFF := by
  constructor
  · intro x y hx hy
    rw [readPixel_withAux hx hy, readPixel_start hx hy]
    rfl
  · intro hagrees
    obtain ⟨hsame, -⟩ := hagrees 0 1 (by decide) (by decide)
    exact absurd hsame (by decide +kernel)

end Video

end BareBones.Drivers
