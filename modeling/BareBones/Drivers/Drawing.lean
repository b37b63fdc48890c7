import BareBones.Drivers.Video
import BareBones.Lib.Views
import Mathlib.Algebra.Order.Ring.Abs
import Mathlib.Tactic.Linarith

/-!
# Figures on the screen

Rectangles and discs, and also circles and text, are drawn pixel by pixel with `putPixel`, which
blends the colour with what is on the screen and leaves out what is not within its bounds.
Coordinates are words of 64 bits: what begins left of the screen or above it wraps around, and is
cut off.

What a figure leaves is told one pixel at a time (`Paints`): how often the routine gets to that
pixel, and with which colour.  The pixels must not share bytes for this (`Spread`).

**Key results**

- `drawRectangle_spec`: a rectangle, at any place, blends every pixel of it once.
- `drawCircle_spec`: a disc has the pixels whose centre is nearer than the radius.
-/

namespace BareBones.Drivers.Video

open BareBones.Lib.Rows BareBones.Lib.Views

variable {v : Video} {px py x y : Nat} {c : UInt32}

/-! ## One pixel -/

/-- No two pixels share a byte. -/
def Spread (v : Video) : Prop :=
  3 ≤ v.pixelBytes ∧ v.getScreenWidth.toNat * v.pixelBytes ≤ v.rowBytes

instance (v : Video) : Decidable v.Spread := inferInstanceAs (Decidable (_ ∧ _))

/-- What a colour leaves of a pixel. -/
def shade (hexColor old : UInt32) : UInt32 :=
  alphaBlend (hexColor &&& 0x00FFFFFF) old (alphaOf hexColor) % 2 ^ 24

/-- An opaque colour leaves nothing. -/
theorem shade_solid (h : alphaOf c = 0xFF) (old : UInt32) : shade c old = c % 2 ^ 24 := by
  have hmask : (c &&& 0x00FFFFFF).toNat = c.toNat % 2 ^ 24 := by
    simp only [UInt32.toNat_and, UInt32.reduceToNat]
    exact Nat.and_two_pow_sub_one_eq_mod c.toNat 24
  have hmod : (c % 2 ^ 24 : UInt32).toNat = c.toNat % 2 ^ 24 := UInt32.toNat_mod _ _
  rw [shade, h, alphaBlend, if_neg (by decide), if_pos rfl, ← UInt32.toNat_inj, UInt32.toNat_mod,
    hmask, hmod]
  exact Nat.mod_mod _ _

theorem offset_apart (hs : v.Spread) (h : v.withinScreenBounds x y)
    (h' : v.withinScreenBounds px py) (hne : ¬(x = px ∧ y = py)) :
    v.getVideoOffset px py + 3 ≤ v.getVideoOffset x y ∨
      v.getVideoOffset x y + 3 ≤ v.getVideoOffset px py := by
  obtain ⟨hpixel, hrow⟩ := hs
  obtain ⟨hx, hy⟩ := h
  obtain ⟨hpx, hpy⟩ := h'
  rw [getVideoOffset_eq, getVideoOffset_eq]
  -- the bytes of a row end before the next row
  have hends : ∀ z, z < v.getScreenWidth.toNat → z * v.pixelBytes + 3 ≤ v.rowBytes := by
    intro z hz
    have hmul : (z + 1) * v.pixelBytes ≤ v.getScreenWidth.toNat * v.pixelBytes :=
      Nat.mul_le_mul_right _ hz
    rw [Nat.add_mul] at hmul
    omega
  have hrows : ∀ a b, a < b → a * v.rowBytes + v.rowBytes ≤ b * v.rowBytes := by
    intro a b hlt
    have hmul : (a + 1) * v.rowBytes ≤ b * v.rowBytes := Nat.mul_le_mul_right _ hlt
    rwa [Nat.add_mul, Nat.one_mul] at hmul
  have hends₁ := hends x hx
  have hends₂ := hends px hpx
  rcases lt_trichotomy y py with hlt | rfl | hgt
  · have := hrows y py hlt
    omega
  · have hcols : ∀ a b, a < b → a * v.pixelBytes + 3 ≤ b * v.pixelBytes := by
      intro a b hlt
      have hmul : (a + 1) * v.pixelBytes ≤ b * v.pixelBytes := Nat.mul_le_mul_right _ hlt
      rw [Nat.add_mul] at hmul
      omega
    rcases lt_trichotomy x px with hlt | rfl | hgt
    · have := hcols x px hlt
      omega
    · exact absurd ⟨rfl, rfl⟩ hne
    · have := hcols px x hgt
      omega
  · have := hrows py y hgt
    omega

/-- The pixel is on a screen whose pixels do not share bytes. -/
def Shows (px py : Nat) (v : Video) : Prop := v.Spread ∧ v.withinScreenBounds px py

/-- What a routine does to one pixel. -/
abbrev Paints (px py : Nat) (f : Video → Video) (g : UInt32 → UInt32) : Prop :=
  Acts (Shows px py) (readPixel · px py) f g

theorem shows_setFrameBuffer {m : Bytes} : Shows px py (v.setFrameBuffer m) ↔ Shows px py v := by
  unfold Shows Spread
  rw [withinScreenBounds_setFrameBuffer, pixelBytes_setFrameBuffer, rowBytes_setFrameBuffer,
    getScreenWidth_setFrameBuffer]

/-- **`putPixel` on one pixel.** -/
theorem paints_putPixel (hexColor : UInt32) (x y : Nat) :
    Paints px py (putPixel hexColor x y)
      (fun old ↦ if x = px ∧ y = py then shade hexColor old else old) := by
  rintro v ⟨hs, hin⟩
  by_cases hxy : v.withinScreenBounds x y
  · rw [putPixel_of_within hxy]
    refine ⟨shows_setFrameBuffer.2 ⟨hs, hin⟩, ?_⟩
    beta_reduce
    rw [readPixel_setFrameBuffer hin]
    split
    next heq =>
      obtain ⟨rfl, rfl⟩ := heq
      refine (pixelAt_eq_iff _).2 fun k hk ↦ ?_
      rw [blit_at hk, channel_alphaBlend _ _ hk, readPixel_of_within hin, channel_pixelAt hk]
    next hne =>
      rw [readPixel_of_within hin]
      refine pixelAt_eq_pixelAt_iff.2 fun k hk ↦ blit_other ?_
      rcases offset_apart hs hxy hin hne with hle | hle
      · exact .inl (by omega)
      · exact .inr (by omega)
  · have hne : ¬(x = px ∧ y = py) := by
      rintro ⟨rfl, rfl⟩
      exact hxy hin
    rw [putPixel, if_neg hxy]
    exact ⟨⟨hs, hin⟩, (if_neg hne).symm⟩

/-! ## Places on the screen -/

theorem lt_of_within (h : v.withinScreenBounds px py) : px < 2 ^ 16 ∧ py < 2 ^ 16 :=
  ⟨h.1.trans (UInt16.toNat_lt _), h.2.trans (UInt16.toNat_lt _)⟩

/-- The round in which a counter gets to a place. -/
theorem place_iff {a : UInt64} {i : Nat} (hpx : px < 2 ^ 64) (hi : i < 2 ^ 64) :
    (a + UInt64.ofNat i).toNat = px ↔ i = (UInt64.ofNat px - a).toNat := by
  have hpx' : (UInt64.ofNat px).toNat = px := by rw [UInt64.toNat_ofNat', Nat.mod_eq_of_lt hpx]
  have hi' : (UInt64.ofNat i).toNat = i := by rw [UInt64.toNat_ofNat', Nat.mod_eq_of_lt hi]
  have ha := a.toNat_lt
  rw [UInt64.toNat_add, UInt64.toNat_sub, hpx', hi']
  omega

/-- A counter in another one, which get to a pixel in one of their rounds. -/
theorem paints_grid {body : Nat → Nat → Video → Video} {n k i₀ j₀ : Nat} {g : UInt32 → UInt32}
    (hbody : ∀ i < n, ∀ j < k, Paints px py (body i j)
      (fun old ↦ if i = i₀ ∧ j = j₀ then g old else old)) :
    Paints px py (forUpTo n fun i ↦ forUpTo k (body i))
      (fun old ↦ if i₀ < n ∧ j₀ < k then g old else old) := by
  have hrow : ∀ i < n, Paints px py (forUpTo k (body i))
      (fun old ↦ if i = i₀ then if j₀ < k then g old else old else old) := by
    intro i hi
    refine (Acts.loop (hbody i hi)).congr fun old ↦ ?_
    by_cases hi₀ : i = i₀
    · simp only [hi₀, true_and, if_true]
      exact forUpTo_once k j₀ old
    · simp only [hi₀, false_and, if_false]
      exact forUpTo_rule (I := fun _ b ↦ b = old) rfl fun _ _ _ h ↦ h
  refine (Acts.loop hrow).congr fun old ↦ ?_
  rw [forUpTo_once]
  by_cases hn : i₀ < n
  · simp only [hn, true_and, if_true]
  · simp only [hn, false_and, if_false]

/-! ## Rectangles -/

/-- `drawRectangle`; there is no result where one of its counters, which are `int`s, overflows. -/
def drawRectangle (hexColor : UInt32) (x y width height : UInt64) (v : Video) : Option Video :=
  if width.toNat < 2 ^ 31 ∧ (width = 0 ∨ height.toNat < 2 ^ 31) then
    some (forUpTo width.toNat (fun i ↦ forUpTo height.toNat fun j ↦
      putPixel hexColor (x + UInt64.ofNat i).toNat (y + UInt64.ofNat j).toNat) v)
  else none

theorem drawRectangle_spec (hexColor : UInt32) (x y width height : UInt64)
    (hwidth : width.toNat < 2 ^ 31) (hheight : width = 0 ∨ height.toNat < 2 ^ 31) (hs : v.Spread) :
    ∃ v', drawRectangle hexColor x y width height v = some v' ∧
      ∀ px py, v.withinScreenBounds px py → v'.readPixel px py =
        if UInt64.ofNat px - x < width ∧ UInt64.ofNat py - y < height then
          shade hexColor (v.readPixel px py)
        else v.readPixel px py := by
  refine ⟨_, if_pos ⟨hwidth, hheight⟩, fun px py hin ↦ ?_⟩
  obtain ⟨hpx, hpy⟩ := lt_of_within hin
  have hbody : ∀ i < width.toNat, ∀ j < height.toNat, Paints px py
      (putPixel hexColor (x + UInt64.ofNat i).toNat (y + UInt64.ofNat j).toNat)
      (fun old ↦ if i = (UInt64.ofNat px - x).toNat ∧ j = (UInt64.ofNat py - y).toNat then
        shade hexColor old else old) := by
    intro i hi j hj
    have hword := height.toNat_lt
    refine (paints_putPixel hexColor _ _).congr fun old ↦ if_congr ?_ rfl rfl
    exact and_congr (place_iff (by omega) (by omega)) (place_iff (by omega) (by omega))
  refine (paints_grid hbody v ⟨hs, hin⟩).2.trans (if_congr ?_ rfl rfl)
  exact and_congr UInt64.lt_iff_toNat_lt.symm UInt64.lt_iff_toNat_lt.symm

/-- A screen of eight by eight pixels. -/
def canvas : Video := ⟨⟨24, 8, 8, 24⟩, fun _ ↦ 0, none, 0, 0⟩

/-- A rectangle that begins above the screen and ends to the right of it. -/
theorem drawRectangle_spec_cut : ∃ v', drawRectangle 0x00FF00 6 (-1) 5 3 canvas = some v' ∧
    ∀ px py, canvas.withinScreenBounds px py → v'.readPixel px py =
      if UInt64.ofNat px - 6 < 5 ∧ UInt64.ofNat py - -1 < 3 then
        shade 0x00FF00 (canvas.readPixel px py)
      else canvas.readPixel px py :=
  drawRectangle_spec 0x00FF00 6 (-1) 5 3 (by decide) (.inr (by decide)) (by decide)

/-! ## Discs -/

/-- A value of type `int64_t`. -/
def int64 (z : Int) : Int := z.bmod (2 ^ 64)

/-- An `int64_t` as an `uint64_t`. -/
def wrap (z : Int) : Nat := (z % 2 ^ 64).toNat

theorem int64_eq {z : Int} (h : -2 ^ 63 ≤ z) (h' : z < 2 ^ 63) : int64 z = z :=
  Int.bmod_eq_of_le (by omega) (by omega)

/-- What is not negative stays, and what is gets out of the screen. -/
theorem wrap_eq_iff {z : Int} (h : -2 ^ 63 ≤ z) (h' : z < 2 ^ 63) (hpx : px < 2 ^ 16) :
    wrap z = px ↔ z = px := by
  unfold wrap
  omega

/-- The body of the inner loop of `drawCircle`. -/
def discPixel (hexColor : UInt32) (centerX centerY rSquared x y : Int) (v : Video) : Video :=
  if int64 ((x - centerX) * (x - centerX) + (y - centerY) * (y - centerY)) < rSquared then
    putPixel hexColor (wrap x) (wrap y) v
  else v

/-- `drawCircle` -/
def drawCircle (hexColor : UInt32) (centerX centerY : Int) (radius : Nat) : Video → Video :=
  let rSquared := int64 (radius * radius)
  let startX := int64 (centerX - radius)
  let startY := int64 (centerY - radius)
  let endX := int64 (centerX + radius)
  let endY := int64 (centerY + radius)
  forUpTo (endX + 1 - startX).toNat fun i ↦ forUpTo (endY + 1 - startY).toNat fun j ↦
    discPixel hexColor centerX centerY rSquared (startX + i) (startY + j)

/-- A value that an `int64_t` holds. -/
def Fits (z : Int) : Prop := -2 ^ 63 ≤ z ∧ z < 2 ^ 63

/-- Nothing that `drawCircle` computes as an `int64_t` overflows: the square of the radius, the
ends of the loops, the counters (also with the step behind the last round), and in each round the
distances, their squares and the sum of these. -/
structure DiscFits (centerX centerY : Int) (radius : Nat) : Prop where
  rSquared : Fits (radius * radius)
  startX : Fits (centerX - radius)
  startY : Fits (centerY - radius)
  endX : Fits (centerX + radius)
  endY : Fits (centerY + radius)
  nextX : ∀ x, centerX - radius ≤ x → x ≤ centerX + radius → Fits (x + 1)
  nextY : ∀ y, centerY - radius ≤ y → y ≤ centerY + radius → Fits (y + 1)
  round : ∀ x y, centerX - radius ≤ x → x ≤ centerX + radius → centerY - radius ≤ y →
    y ≤ centerY + radius → Fits (x - centerX) ∧ Fits (y - centerY) ∧
      Fits ((x - centerX) * (x - centerX)) ∧ Fits ((y - centerY) * (y - centerY)) ∧
      Fits ((x - centerX) * (x - centerX) + (y - centerY) * (y - centerY))

/-- A distance within the radius, squared. -/
theorem square_le {d : Int} {radius : Nat} (hlo : -(radius : Int) ≤ d) (hhi : d ≤ radius) :
    0 ≤ d * d ∧ d * d ≤ radius * radius := by
  constructor
  · exact mul_self_nonneg d
  · nlinarith

/-- For a radius of less than 32 bits only the ends of the loops can overflow. -/
theorem discFits {centerX centerY : Int} {radius : Nat} (hradius : radius < 2 ^ 31)
    (hx : -2 ^ 63 ≤ centerX - radius ∧ centerX + radius < 2 ^ 63 - 1)
    (hy : -2 ^ 63 ≤ centerY - radius ∧ centerY + radius < 2 ^ 63 - 1) :
    DiscFits centerX centerY radius := by
  have hr : (radius : Int) ≤ 2 ^ 31 - 1 := by omega
  have hbound : (radius : Int) * radius ≤ (2 ^ 31 - 1) * (2 ^ 31 - 1) := by
    nlinarith
  have hpos : 0 ≤ (radius : Int) * radius := mul_self_nonneg _
  refine
    { rSquared := ⟨by omega, by omega⟩
      startX := ⟨by omega, by omega⟩
      startY := ⟨by omega, by omega⟩
      endX := ⟨by omega, by omega⟩
      endY := ⟨by omega, by omega⟩
      nextX := fun x hlo hhi ↦ ⟨by omega, by omega⟩
      nextY := fun y hlo hhi ↦ ⟨by omega, by omega⟩
      round := ?_ }
  intro x y hx₀ hx₁ hy₀ hy₁
  obtain ⟨hxx, hxr⟩ : 0 ≤ (x - centerX) * (x - centerX) ∧
      (x - centerX) * (x - centerX) ≤ radius * radius := square_le (by omega) (by omega)
  obtain ⟨hyy, hyr⟩ : 0 ≤ (y - centerY) * (y - centerY) ∧
      (y - centerY) * (y - centerY) ≤ radius * radius := square_le (by omega) (by omega)
  refine ⟨⟨by omega, by omega⟩, ⟨by omega, by omega⟩, ⟨by omega, by omega⟩,
    ⟨by omega, by omega⟩, by omega, by omega⟩

/-- A round of the inner loop, when nothing overflows. -/
theorem paints_discPixel {centerX centerY x y : Int} {radius : Nat} (hexColor : UInt32)
    (h : DiscFits centerX centerY radius) (hx₀ : centerX - radius ≤ x)
    (hx₁ : x ≤ centerX + radius) (hy₀ : centerY - radius ≤ y) (hy₁ : y ≤ centerY + radius)
    (hpx : px < 2 ^ 16) (hpy : py < 2 ^ 16) :
    Paints px py (discPixel hexColor centerX centerY (int64 (radius * radius)) x y)
      (fun old ↦ if x = px ∧ y = py then
        if (x - centerX) ^ 2 + (y - centerY) ^ 2 < (radius : Int) ^ 2 then shade hexColor old
        else old
      else old) := by
  simp only [sq]
  have hstartX := h.startX.1
  have hstartY := h.startY.1
  have hendX := h.endX.2
  have hendY := h.endY.2
  have hplace : wrap x = px ∧ wrap y = py ↔ x = px ∧ y = py := by
    rw [wrap_eq_iff (by omega) (by omega) hpx, wrap_eq_iff (by omega) (by omega) hpy]
  obtain ⟨-, -, -, -, hsum₀, hsum⟩ := h.round x y hx₀ hx₁ hy₀ hy₁
  have hdistance : int64 ((x - centerX) * (x - centerX) + (y - centerY) * (y - centerY)) =
      (x - centerX) * (x - centerX) + (y - centerY) * (y - centerY) := int64_eq hsum₀ hsum
  have hrSquared : int64 ((radius : Int) * radius) = radius * radius :=
    int64_eq h.rSquared.1 h.rSquared.2
  by_cases hin : (x - centerX) * (x - centerX) + (y - centerY) * (y - centerY) < radius * radius
  · have hput : discPixel hexColor centerX centerY (int64 (radius * radius)) x y =
        putPixel hexColor (wrap x) (wrap y) := by
      funext v
      rw [discPixel, hdistance, hrSquared, if_pos hin]
    simp only [hput, hin, if_true]
    exact (paints_putPixel hexColor _ _).congr fun old ↦ if_congr hplace rfl rfl
  · have hskip : discPixel hexColor centerX centerY (int64 (radius * radius)) x y = id := by
      funext v
      rw [discPixel, hdistance, hrSquared, if_neg hin, id]
    simp only [hskip, hin, if_false, ite_self]
    exact Acts.skip

/-- What a disc leaves of a pixel. -/
theorem paints_drawCircle (hexColor : UInt32) {centerX centerY : Int} {radius : Nat}
    (h : DiscFits centerX centerY radius) (hpx : px < 2 ^ 16) (hpy : py < 2 ^ 16) :
    Paints px py (drawCircle hexColor centerX centerY radius) (fun old ↦
      if (px - centerX) ^ 2 + (py - centerY) ^ 2 < (radius : Int) ^ 2 then shade hexColor old
      else old) := by
  have hdiameter : ∀ z : Int, (z + radius + 1 - (z - radius)).toNat = 2 * radius + 1 := by
    intro z
    omega
  have hunfold : drawCircle hexColor centerX centerY radius =
      forUpTo (2 * radius + 1) fun i ↦ forUpTo (2 * radius + 1) fun j ↦
        discPixel hexColor centerX centerY (int64 (radius * radius)) (centerX - radius + i)
          (centerY - radius + j) := by
    unfold drawCircle
    rw [int64_eq h.startX.1 h.startX.2, int64_eq h.startY.1 h.startY.2,
      int64_eq h.endX.1 h.endX.2, int64_eq h.endY.1 h.endY.2]
    simp only [hdiameter]
  have hround := fun (i j : Nat) (hi : i < 2 * radius + 1) (hj : j < 2 * radius + 1) ↦
    paints_discPixel (x := centerX - radius + i) (y := centerY - radius + j) hexColor h
      (by omega) (by omega) (by omega) (by omega) hpx hpy
  rw [hunfold]
  by_cases hnear : (px - centerX) ^ 2 + (py - centerY) ^ 2 < (radius : Int) ^ 2
  · simp only [hnear, if_true]
    obtain ⟨hx₀, hx⟩ : -(radius : Int) < px - centerX ∧ (px : Int) - centerX < radius :=
      abs_lt_of_sq_lt_sq' (by linarith [sq_nonneg ((py : Int) - centerY)])
        (Int.natCast_nonneg radius)
    obtain ⟨hy₀, hy⟩ : -(radius : Int) < py - centerY ∧ (py : Int) - centerY < radius :=
      abs_lt_of_sq_lt_sq' (by linarith [sq_nonneg ((px : Int) - centerX)])
        (Int.natCast_nonneg radius)
    have hbody : ∀ i < 2 * radius + 1, ∀ j < 2 * radius + 1, Paints px py
        (discPixel hexColor centerX centerY (int64 (radius * radius)) (centerX - radius + i)
          (centerY - radius + j))
        (fun old ↦ if i = ((px : Int) - centerX + radius).toNat ∧
          j = ((py : Int) - centerY + radius).toNat then shade hexColor old else old) := by
      intro i hi j hj
      refine (hround i j hi hj).congr fun old ↦ ?_
      by_cases hhere : centerX - radius + i = px ∧ centerY - radius + j = py
      · rw [if_pos hhere, hhere.1, hhere.2, if_pos hnear, if_pos (by omega)]
      · rw [if_neg hhere, if_neg (by omega)]
    exact (paints_grid hbody).congr fun old ↦ if_pos (by omega)
  · simp only [hnear, if_false]
    have hbody : ∀ i < 2 * radius + 1, ∀ j < 2 * radius + 1, Paints px py
        (discPixel hexColor centerX centerY (int64 (radius * radius)) (centerX - radius + i)
          (centerY - radius + j)) (fun old ↦ if i = 0 ∧ j = 0 then id old else old) := by
      intro i hi j hj
      refine (hround i j hi hj).congr fun old ↦ ?_
      rw [id, ite_self]
      split
      next hhere => rw [hhere.1, hhere.2, if_neg hnear]
      next => rfl
    exact (paints_grid hbody).congr fun old ↦ ite_self _

/-- **A disc** has the pixels whose centre is nearer than the radius, and blends each of them
once; nothing overflows on the way. -/
theorem drawCircle_spec (hexColor : UInt32) {centerX centerY : Int} {radius : Nat}
    (hradius : radius < 2 ^ 31)
    (hx : -2 ^ 63 ≤ centerX - radius ∧ centerX + radius < 2 ^ 63 - 1)
    (hy : -2 ^ 63 ≤ centerY - radius ∧ centerY + radius < 2 ^ 63 - 1) (hs : v.Spread) :
    DiscFits centerX centerY radius ∧ ∀ px py, v.withinScreenBounds px py →
      (drawCircle hexColor centerX centerY radius v).readPixel px py =
        if (px - centerX) ^ 2 + (py - centerY) ^ 2 < (radius : Int) ^ 2 then
          shade hexColor (v.readPixel px py)
        else v.readPixel px py := by
  have hfits := discFits hradius hx hy
  refine ⟨hfits, fun px py hin ↦ ?_⟩
  obtain ⟨hpx, hpy⟩ := lt_of_within hin
  exact (paints_drawCircle hexColor hfits hpx hpy v ⟨hs, hin⟩).2

/-- A disc on the left edge of the screen. -/
theorem drawCircle_spec_corner : DiscFits (-1) 2 4 ∧ ∀ px py, canvas.withinScreenBounds px py →
    (drawCircle 0x00FF00 (-1) 2 4 canvas).readPixel px py =
      if ((px : Int) - -1) ^ 2 + (py - 2) ^ 2 < ((4 : Nat) : Int) ^ 2 then
        shade 0x00FF00 (canvas.readPixel px py)
      else canvas.readPixel px py :=
  drawCircle_spec 0x00FF00 (by decide) (by decide) (by decide) (by decide)

end BareBones.Drivers.Video
