import BareBones.Drivers.Drawing

/-!
# Text on the screen

A glyph of the font has sixteen rows of eight bits, and each bit becomes a square of `scale`
by `scale` pixels.  The place of a character is that of its base line, twelve rows below its
top.  Without a background only the bits that are set are drawn.

A text is one cell for each character, and so what a pixel shows is found by a division: the
cell, and the bit in the glyph of its character (`drawString_spec`).

**Key results**

- `paints_symbolPixels`: what a character does to a pixel.
- `drawString_spec`: what a text leaves of a pixel.
-/

namespace BareBones.Drivers.Video

open BareBones.Lib.Rows BareBones.Lib.Views

variable {v : Video} {px py : Nat} {font : Nat → UInt8} {fgcolor bgcolor : UInt32} {scale : Nat}

def CHAR_WIDTH : Nat := 8

def CHAR_HEIGHT : Nat := 16

def STRING_SPACING : Nat := 0

/-- The bits of a row, from left to right. -/
def mask : List UInt8 := [128, 64, 32, 16, 8, 4, 2, 1]

/-- `glyph[row] & mask[col]`, where the glyph begins at `font + c * CHAR_HEIGHT`. -/
def Ink (font : Nat → UInt8) (c : UInt8) (row col : Nat) : Prop :=
  font (c.toNat * CHAR_HEIGHT + row) &&& mask.getD col 0 ≠ 0

instance (font : Nat → UInt8) (c : UInt8) (row col : Nat) : Decidable (Ink font c row col) :=
  inferInstanceAs (Decidable (_ ≠ _))

/-- A value that an `int` holds. -/
def FitsInt (z : Int) : Prop := -2 ^ 31 ≤ z ∧ z < 2 ^ 31

instance (z : Int) : Decidable (FitsInt z) := inferInstanceAs (Decidable (_ ∧ _))

/-- The loops of `drawSymbol`. -/
def symbolPixels (font : Nat → UInt8) (c : UInt8) (x y : UInt64) (fgcolor bgcolor : UInt32)
    (scale : Nat) : Video → Video :=
  let place (cy cx : Nat) (hexColor : UInt32) : Video → Video :=
    putPixel hexColor (x + UInt64.ofNat cx).toNat
      (y + UInt64.ofNat cy - UInt64.ofNat (12 * scale)).toNat
  if bgcolor = 0xFFFFFFFF then
    forUpTo (CHAR_HEIGHT * scale) fun cy ↦ forUpTo (CHAR_WIDTH * scale) fun cx v ↦
      if Ink font c (cy / scale) (cx / scale) then place cy cx fgcolor v else v
  else
    forUpTo (CHAR_HEIGHT * scale) fun cy ↦ forUpTo (CHAR_WIDTH * scale) fun cx ↦
      place cy cx (if Ink font c (cy / scale) (cx / scale) then fgcolor else bgcolor)

/-- `drawSymbol`; there is no result where an `int` overflows.  A negative scale makes no round of
the loops with a background, but the bounds of the loops without one are `uint64_t`s, beyond
every `int`: these read `mask[cx / scale]` outside of the array, and there is no result either. -/
def drawSymbol (font : Nat → UInt8) (c : UInt8) (x y : UInt64) (fgcolor bgcolor : UInt32)
    (scale : Int) (v : Video) : Option Video :=
  if FitsInt (CHAR_HEIGHT * scale) ∧ (bgcolor = 0xFFFFFFFF → 0 ≤ scale) then
    some (symbolPixels font c x y fgcolor bgcolor scale.toNat v)
  else none

/-- `drawString`; the coordinates are `int`s too, also the one behind the last character. -/
def drawString (font : Nat → UInt8) : (string : List UInt8) → (x y : Int) →
    (fgcolor bgcolor : UInt32) → (scale : Int) → Video → Option Video
  | [], _, _, _, _, _, v => some v
  | c :: string, x, y, fgcolor, bgcolor, scale, v => do
      let v ← drawSymbol font c (UInt64.ofNat (wrap x)) (UInt64.ofNat (wrap y)) fgcolor bgcolor
        scale v
      if FitsInt (x + (CHAR_WIDTH + STRING_SPACING) * scale) then
        drawString font string (x + (CHAR_WIDTH + STRING_SPACING) * scale) y fgcolor bgcolor scale v
      else none

/-- The pixels of the characters of a text, one character after the other. -/
def stringPixels (font : Nat → UInt8) : (string : List UInt8) → (x y : Int) →
    (fgcolor bgcolor : UInt32) → (scale : Nat) → Video → Video
  | [], _, _, _, _, _ => id
  | c :: string, x, y, fgcolor, bgcolor, scale =>
      stringPixels font string (x + (CHAR_WIDTH + STRING_SPACING) * scale) y fgcolor bgcolor
          scale ∘
        symbolPixels font c (UInt64.ofNat (wrap x)) (UInt64.ofNat (wrap y)) fgcolor bgcolor scale

/-- What is left of a pixel in the cell of a character, by its row and its column there. -/
def cell (font : Nat → UInt8) (c : UInt8) (fgcolor bgcolor : UInt32) (row col : Nat)
    (old : UInt32) : UInt32 :=
  if Ink font c row col then shade fgcolor old
  else if bgcolor = 0xFFFFFFFF then old
  else shade bgcolor old

/-- **What a character does to a pixel.** -/
theorem paints_symbolPixels (c : UInt8) (x y : UInt64) (hpx : px < 2 ^ 16) (hpy : py < 2 ^ 16)
    (hscale : CHAR_HEIGHT * scale < 2 ^ 31) {row col : Nat}
    (hrow : row = (UInt64.ofNat py - (y - UInt64.ofNat (12 * scale))).toNat)
    (hcol : col = (UInt64.ofNat px - x).toNat) :
    Paints px py (symbolPixels font c x y fgcolor bgcolor scale)
      (fun old ↦ if row < CHAR_HEIGHT * scale ∧ col < CHAR_WIDTH * scale then
        cell font c fgcolor bgcolor (row / scale) (col / scale) old
      else old) := by
  have hwidth : CHAR_WIDTH * scale ≤ CHAR_HEIGHT * scale := Nat.mul_le_mul_right _ (by decide)
  -- where the counters get to the pixel
  have hplace : ∀ cy < CHAR_HEIGHT * scale, ∀ cx < CHAR_WIDTH * scale,
      ((x + UInt64.ofNat cx).toNat = px ∧
        (y + UInt64.ofNat cy - UInt64.ofNat (12 * scale)).toNat = py ↔ cy = row ∧ cx = col) := by
    intro cy hcy cx hcx
    have hbase : y + UInt64.ofNat cy - UInt64.ofNat (12 * scale) =
        y - UInt64.ofNat (12 * scale) + UInt64.ofNat cy := by
      rw [UInt64.sub_eq_add_neg, UInt64.sub_eq_add_neg, UInt64.add_assoc, UInt64.add_assoc,
        UInt64.add_comm (UInt64.ofNat cy)]
    rw [hbase, place_iff (by omega) (by omega), place_iff (by omega) (by omega), hrow, hcol]
    exact and_comm
  unfold symbolPixels
  by_cases hbg : bgcolor = 0xFFFFFFFF
  · simp only [hbg, if_true]
    refine paints_grid fun cy hcy cx hcx ↦ ?_
    by_cases hink : Ink font c (cy / scale) (cx / scale)
    · simp only [hink, if_true]
      refine (paints_putPixel _ _ _).congr fun old ↦ ?_
      rw [if_congr (hplace cy hcy cx hcx) rfl rfl]
      split
      next hhere => rw [← hhere.1, ← hhere.2, cell, if_pos hink]
      next => rfl
    · simp only [hink, if_false]
      refine Acts.skip.congr fun old ↦ ?_
      split
      next hhere => rw [← hhere.1, ← hhere.2, cell, if_neg hink, if_pos rfl, id]
      next => rfl
  · simp only [hbg, if_false]
    refine paints_grid fun cy hcy cx hcx ↦ (paints_putPixel _ _ _).congr fun old ↦ ?_
    rw [if_congr (hplace cy hcy cx hcx) rfl rfl]
    split
    next hhere =>
      rw [hhere.1, hhere.2, cell, if_neg hbg]
      split
      · rfl
      · rfl
    next => rfl

/-- The distance from a place that is an `int`. -/
theorem sub_wrap {x : Int} (hx : |x| ≤ 2 ^ 32) (hpx : px < 2 ^ 16) :
    ((UInt64.ofNat px - UInt64.ofNat (wrap x)).toNat : Int) = ((px : Int) - x) % 2 ^ 64 := by
  rw [abs_le] at hx
  have hwrap : wrap x < 2 ^ 64 := by
    unfold wrap
    omega
  rw [UInt64.toNat_sub, UInt64.toNat_ofNat', UInt64.toNat_ofNat', Nat.mod_eq_of_lt hwrap]
  unfold wrap
  omega

/-- What a text leaves of a pixel: the cell is found from the distance to the beginning. -/
def lettering (font : Nat → UInt8) (string : List UInt8) (fgcolor bgcolor : UInt32) (scale : Nat)
    (dx dy : Int) (old : UInt32) : UInt32 :=
  if 0 ≤ dx ∧ 0 ≤ dy ∧ dy < CHAR_HEIGHT * scale then
    (string[(dx / (CHAR_WIDTH * scale)).toNat]?).elim old fun c ↦
      cell font c fgcolor bgcolor (dy.toNat / scale)
        ((dx % (CHAR_WIDTH * scale)).toNat / scale) old
  else old

/-- A character and then the others. -/
theorem lettering_cons (hscale : 0 < scale) (c : UInt8) (string : List UInt8) (dx dy : Int)
    (old : UInt32) : lettering font (c :: string) fgcolor bgcolor scale dx dy old =
      lettering font string fgcolor bgcolor scale (dx - CHAR_WIDTH * scale) dy
        (if 0 ≤ dy ∧ dy < CHAR_HEIGHT * scale ∧ 0 ≤ dx ∧ dx < CHAR_WIDTH * scale then
          cell font c fgcolor bgcolor (dy.toNat / scale) (dx.toNat / scale) old
        else old) := by
  have hwidth : (0 : Int) < CHAR_WIDTH * scale := by
    unfold CHAR_WIDTH
    omega
  unfold lettering
  by_cases hdy : 0 ≤ dy ∧ dy < CHAR_HEIGHT * scale
  · by_cases hdx : 0 ≤ dx
    · by_cases hfirst : dx < CHAR_WIDTH * scale
      · have hzero : (dx / (CHAR_WIDTH * scale)).toNat = 0 := by
          rw [Int.ediv_eq_zero_of_lt hdx hfirst]
          rfl
        rw [if_pos ⟨hdx, hdy⟩, if_neg (by omega), if_pos ⟨hdy.1, hdy.2, hdx, hfirst⟩, hzero,
          Int.emod_eq_of_lt hdx hfirst]
        rfl
      · have hdiv : (dx - CHAR_WIDTH * scale) / (CHAR_WIDTH * scale) =
            dx / (CHAR_WIDTH * scale) - 1 := by
          rw [Int.sub_ediv_of_dvd _ (dvd_refl _), Int.ediv_self hwidth.ne']
        have hnonneg : 1 ≤ dx / (CHAR_WIDTH * scale) := by
          rw [Int.le_ediv_iff_mul_le hwidth]
          omega
        have hindex : (dx / (CHAR_WIDTH * scale)).toNat =
            (dx / (CHAR_WIDTH * scale) - 1).toNat + 1 := by omega
        rw [if_pos ⟨hdx, hdy⟩, if_pos ⟨by omega, hdy⟩, if_neg (by omega), hdiv, hindex,
          List.getElem?_cons_succ, Int.sub_emod_right]
    · rw [if_neg (by omega), if_neg (by omega), if_neg (by omega)]
  · rw [if_neg (by omega), if_neg (by omega), if_neg (by omega)]

/-- The top of a character. -/
theorem ofNat_wrap_sub (y : Int) (n : Nat) :
    UInt64.ofNat (wrap y) - UInt64.ofNat n = UInt64.ofNat (wrap (y - n)) := by
  have hadd : UInt64.ofNat (wrap (y - n)) + UInt64.ofNat n = UInt64.ofNat (wrap y) := by
    rw [← UInt64.ofNat_add, ← UInt64.toNat_inj, UInt64.toNat_ofNat', UInt64.toNat_ofNat']
    unfold wrap
    omega
  rw [← hadd, UInt64.add_sub_cancel]

/-- The distances of a pixel from a character, if they are small. -/
theorem in_cell_iff {d : Int} {n k : Nat} (hd : |d| ≤ 2 ^ 33) (hk : k < 2 ^ 31)
    (h : (n : Int) = d % 2 ^ 64) : n < k ↔ 0 ≤ d ∧ d < k := by
  rw [abs_le] at hd
  omega

/-- The text goes on behind its first character. -/
theorem paints_stringPixels_cons {x y : Int} {c : UInt8} {string : List UInt8} (hpx : px < 2 ^ 16)
    (hpy : py < 2 ^ 16) (hscale : 0 < scale) (hbig : CHAR_HEIGHT * scale < 2 ^ 31)
    (hx : |x| ≤ 2 ^ 32) (hy : |y| ≤ 2 ^ 31)
    (hrest : Paints px py (stringPixels font string (x + (CHAR_WIDTH + STRING_SPACING) * scale) y
        fgcolor bgcolor scale)
      (lettering font string fgcolor bgcolor scale
        (px - (x + (CHAR_WIDTH + STRING_SPACING) * scale)) (py - (y - 12 * scale)))) :
    Paints px py (stringPixels font (c :: string) x y fgcolor bgcolor scale)
      (lettering font (c :: string) fgcolor bgcolor scale (px - x) (py - (y - 12 * scale))) := by
  have hwidth : CHAR_WIDTH * scale ≤ CHAR_HEIGHT * scale := Nat.mul_le_mul_right _ (by decide)
  have hheight : (12 * scale : Int) ≤ 2 ^ 31 := by
    unfold CHAR_HEIGHT at hbig
    omega
  have hx' := abs_le.1 hx
  have hy' := abs_le.1 hy
  have hdx : |(px : Int) - x| ≤ 2 ^ 33 := by
    rw [abs_le]
    omega
  have hy₀ : |y - 12 * scale| ≤ 2 ^ 32 := by
    rw [abs_le]
    omega
  have hdy : |(py : Int) - (y - 12 * scale)| ≤ 2 ^ 33 := by
    have := abs_le.1 hy₀
    rw [abs_le]
    omega
  have hcol := sub_wrap hx hpx
  have hrow := sub_wrap hy₀ hpy
  rw [show y - 12 * (scale : Int) = y - (12 * scale : Nat) by push_cast; ring,
    ← ofNat_wrap_sub] at hrow
  obtain ⟨col, hcol'⟩ : ∃ col, col = (UInt64.ofNat px - UInt64.ofNat (wrap x)).toNat := ⟨_, rfl⟩
  obtain ⟨row, hrow'⟩ : ∃ row, row = (UInt64.ofNat py -
    (UInt64.ofNat (wrap y) - UInt64.ofNat (12 * scale))).toNat := ⟨_, rfl⟩
  rw [← hcol'] at hcol
  rw [← hrow'] at hrow
  refine ((paints_symbolPixels c _ _ hpx hpy hbig hrow' hcol').seq hrest).congr fun old ↦ ?_
  have hinrow := in_cell_iff hdy hbig hrow
  have hincol := in_cell_iff hdx (hwidth.trans_lt hbig) hcol
  have hnext : (px : Int) - (x + (CHAR_WIDTH + STRING_SPACING) * scale) =
      px - x - CHAR_WIDTH * scale := by
    unfold STRING_SPACING
    ring
  rw [lettering_cons hscale, Function.comp_apply, hnext]
  refine congrArg _ ?_
  by_cases hin : row < CHAR_HEIGHT * scale ∧ col < CHAR_WIDTH * scale
  · obtain ⟨hy₁, hy₂⟩ := hinrow.1 hin.1
    obtain ⟨hx₁, hx₂⟩ := hincol.1 hin.2
    have hrow₀ : ((py : Int) - (y - 12 * scale)).toNat = row := by omega
    have hcol₀ : ((px : Int) - x).toNat = col := by omega
    rw [if_pos hin, if_pos ⟨hy₁, by exact_mod_cast hy₂, hx₁, by exact_mod_cast hx₂⟩, hrow₀, hcol₀]
  · rw [if_neg hin, if_neg]
    rintro ⟨hy₁, hy₂, hx₁, hx₂⟩
    exact hin ⟨hinrow.2 ⟨hy₁, by exact_mod_cast hy₂⟩, hincol.2 ⟨hx₁, by exact_mod_cast hx₂⟩⟩

theorem paints_stringPixels {x y : Int} (string : List UInt8) (hpx : px < 2 ^ 16)
    (hpy : py < 2 ^ 16)
    (hscale : 0 < scale) (hbig : CHAR_HEIGHT * scale < 2 ^ 31) (hx : -2 ^ 31 ≤ x)
    (hend : x + CHAR_WIDTH * scale * string.length ≤ 2 ^ 32) (hy : |y| ≤ 2 ^ 31) :
    Paints px py (stringPixels font string x y fgcolor bgcolor scale)
      (lettering font string fgcolor bgcolor scale (px - x) (py - (y - 12 * scale))) := by
  induction string generalizing x with
  | nil =>
      refine Acts.skip.congr fun old ↦ ?_
      unfold lettering
      split
      · rfl
      · rfl
  | cons c string ih =>
      have hcell : (0 : Int) ≤ CHAR_WIDTH * scale := by positivity
      have hcells : (0 : Int) ≤ CHAR_WIDTH * scale * string.length := by positivity
      have hnext : x + (CHAR_WIDTH + STRING_SPACING) * scale = x + CHAR_WIDTH * scale := by
        unfold STRING_SPACING
        ring
      rw [List.length_cons, Nat.cast_add, Nat.cast_one, mul_add, mul_one] at hend
      refine paints_stringPixels_cons hpx hpy hscale hbig ?_ hy (ih ?_ ?_)
      · rw [abs_le]
        constructor
        · linarith
        · linarith
      · linarith
      · linarith

/-! ## Texts -/

/-- The coordinate behind a character is between the first one and the last one. -/
theorem fits_next {x width : Int} {n : Nat} (hx : FitsInt x)
    (hend : FitsInt (x + width * (n + 1 : Nat))) : FitsInt (x + width) := by
  obtain ⟨hx₀, hx₁⟩ := hx
  obtain ⟨hend₀, hend₁⟩ := hend
  rw [Nat.cast_succ, mul_add, mul_one] at hend₀ hend₁
  rcases le_total 0 width with hpos | hneg
  · have hrest : 0 ≤ width * n := mul_nonneg hpos (Int.natCast_nonneg n)
    exact ⟨by omega, by omega⟩
  · have hrest : width * n ≤ 0 := mul_nonpos_of_nonpos_of_nonneg hneg (Int.natCast_nonneg n)
    exact ⟨by omega, by omega⟩

/-- A text whose coordinates are `int`s has a result, and these are its pixels. -/
theorem drawString_eq {x y scale : Int} (string : List UInt8)
    (hbig : FitsInt (CHAR_HEIGHT * scale)) (hsign : bgcolor = 0xFFFFFFFF → 0 ≤ scale)
    (hx : FitsInt x) (hend : FitsInt (x + CHAR_WIDTH * scale * string.length)) :
    drawString font string x y fgcolor bgcolor scale v =
      some (if 0 < scale then stringPixels font string x y fgcolor bgcolor scale.toNat v
        else v) := by
  induction string generalizing x v with
  | nil =>
      rw [drawString, stringPixels, id, ite_self]
  | cons c string ih =>
      have hnext : x + (CHAR_WIDTH + STRING_SPACING) * scale = x + CHAR_WIDTH * scale := by
        unfold STRING_SPACING
        ring
      rw [List.length_cons] at hend
      have hfits := fits_next hx hend
      have hrest : FitsInt (x + CHAR_WIDTH * scale + CHAR_WIDTH * scale * string.length) := by
        rw [Nat.cast_succ, mul_add, mul_one] at hend
        rwa [add_assoc, add_comm (CHAR_WIDTH * scale : Int)]
      rw [drawString, drawSymbol, if_pos ⟨hbig, hsign⟩, Option.bind_eq_bind, Option.bind_some,
        hnext, if_pos hfits, ih hfits hrest]
      split
      next hpos =>
        rw [stringPixels, Function.comp_apply, Int.toNat_of_nonneg hpos.le, hnext]
      next hneg =>
        -- no round of a loop
        have hzero : scale.toNat = 0 := by omega
        rw [hzero, symbolPixels]
        split
        · rfl
        · rfl

/-- **What a text leaves of a pixel**: where the pixel is in the cell of a character, a square
of its glyph, and otherwise what was there.  Nothing else is asked than that the `int`s do not
overflow, and that the scale is not negative without a background. -/
theorem drawString_spec {x y scale : Int} (string : List UInt8)
    (hbig : FitsInt (CHAR_HEIGHT * scale)) (hsign : bgcolor = 0xFFFFFFFF → 0 ≤ scale)
    (hx : FitsInt x) (hend : FitsInt (x + CHAR_WIDTH * scale * string.length)) (hy : FitsInt y)
    (hs : v.Spread) :
    ∃ v', drawString font string x y fgcolor bgcolor scale v = some v' ∧
      ∀ px py, v.withinScreenBounds px py → v'.readPixel px py =
        lettering font string fgcolor bgcolor scale.toNat (px - x) (py - (y - 12 * scale))
          (v.readPixel px py) := by
  refine ⟨_, drawString_eq string hbig hsign hx hend, fun px py hin ↦ ?_⟩
  obtain ⟨hpx, hpy⟩ := lt_of_within hin
  obtain ⟨-, hbig⟩ := hbig
  split
  next hpos =>
    obtain ⟨n, rfl⟩ := Int.eq_ofNat_of_zero_le hpos.le
    have hy' : |y| ≤ 2 ^ 31 := abs_le.2 ⟨hy.1, hy.2.le⟩
    exact (paints_stringPixels string hpx hpy (by omega) (by exact_mod_cast hbig) hx.1
      (hend.2.le.trans (by decide)) hy' v ⟨hs, hin⟩).2
  next hneg =>
    have hzero : scale.toNat = 0 := by omega
    rw [hzero, lettering, if_neg (by omega)]

/-- Two characters, the first of which begins left of the screen. -/
theorem drawString_spec_two : ∃ v', drawString (fun i ↦ if i = 26 then 0x18 else 0) [1, 2] (-12) 8
      0x00FF00 0xFFFFFFFF 1 canvas = some v' ∧
    ∀ px py, canvas.withinScreenBounds px py → v'.readPixel px py =
      lettering (fun i ↦ if i = 26 then 0x18 else 0) [1, 2] 0x00FF00 0xFFFFFFFF (Int.toNat 1)
        (px - -12) (py - (8 - 12 * 1)) (canvas.readPixel px py) :=
  drawString_spec [1, 2] (by decide) (by decide) (by decide) (by decide) (by decide) (by decide)

end BareBones.Drivers.Video
